import WebcryptoMls.HeldKeyRuns

/-!
# Commits that are received

A member that can apply the proposals of another member's commit is not stopped by the rest of
it: it writes the committer's path into its tree, is sent the path's secret under a key it holds,
and derives the committer's epoch.
-/
namespace WebcryptoMls
open InOrder (index size Below)
open Records

/-! ## The path -/

section
variable {cs : CiphersuiteImpl} {t : RatchetTree} {d i : ℕ} {gc : GroupContext}
  {key : cs.signature.SignatureSecretKey} {coins : PathCoins} {excluded : List ℕ}
  {patch : ResolvedLeafNodePatch cs.signature} {created : CreatedPath cs}
  {path sender : PrivateKeyPath} {commitSecret : Bytes}

/-- Keys of blank nodes are not asked for. -/
theorem decryptPathSecret_pruned {keys : Record ℤ Bytes} {recipients : List (ℤ × HPKECiphertext)}
    (h : ∀ r ∈ recipients, (nodeAt t r.1).isSome) :
    decryptPathSecret (keys.filterKeys fun n => (nodeAt t n).isSome) gc cs recipients =
      decryptPathSecret keys gc cs recipients := by
  induction recipients with
  | nil => rfl
  | cons r recipients ih =>
    obtain ⟨n, ct⟩ := r
    obtain ⟨hn, hrest⟩ := List.forall_mem_cons.mp h
    dsimp only at hn
    simp only [decryptPathSecret, Record.get_filterKeys, if_pos hn, ih hrest]

/-- A secret is sent to nodes that are not blank. -/
theorem ReceivesSecret.sendTo {exclude : List ℤ} {x : ℕ} {pathSecret : PathSecret}
    {node : UpdatePathNode} (hlen : t.length = size d) (hd : d ≤ 31)
    (h : createUpdatePath t i gc cs key coins exclude patch = .ok created)
    (hreceives : ReceivesSecret cs t i gc exclude created path x pathSecret node) :
    ∀ n ∈ pathSecret.sendTo, (nodeAt t n).isSome := by
  obtain ⟨secrets, context, -, -, hsealed, hsent⟩ := createUpdatePath_secrets hlen hd h
  have hne : secrets ≠ [] := by
    rintro rfl
    have hnode := hreceives.sentNode
    rw [List.forall₂_nil_left_iff.mp hsealed] at hnode
    cases hnode
  have hsecret := hreceives.sentSecret
  rw [hsent hne] at hsecret
  have hzip : (pathSecret, node) ∈ secrets.zip created.updatePath.nodes :=
    List.mem_iff_getElem?.mpr ⟨x, List.getElem?_zip_eq_some.mpr ⟨hsecret, hreceives.sentNode⟩⟩
  have hseals := (List.forall₂_iff_zip.mp hsealed).2 hzip
  intro n hn
  obtain ⟨ct, -, coins, recipientKey, hkey, -⟩ := exists_mem_of_forall₂ hseals.secret.flip hn
  rw [publicKeyAt] at hkey
  cases hnode : nodeAt t n with
  | none =>
    rw [hnode] at hkey
    cases hkey
  | some node => rfl

/-- A blank node is sent nothing: to exclude it changes nothing. -/
theorem createUpdatePath_excludes_blank {n : ℤ} (ht : Represented t) (hlen : t.length = size d)
    (hd : d ≤ 31) (hn : nodeAt t n = none)
    (h : createUpdatePath t i gc cs key coins [] patch = .ok created) :
    createUpdatePath t i gc cs key coins [n] patch = .ok created := by
  have hfilter (e : List ℤ) (he : n ∉ e) : filterNewLeaves e [n] = filterNewLeaves e [] := by
    refine List.filter_congr fun y hy => ?_
    have hne : y ≠ n := fun heq => he (heq ▸ hy)
    simp [hne]
  rw [← h]
  unfold createUpdatePath
  cases hfdp : filteredDirectPathAndCopathResolution i t with
  | error e => rfl
  | ok fdp =>
    obtain ⟨hd', hi⟩ := filteredDirectPathAndCopathResolution_eq_ok hlen hd hfdp
    rw [filteredDirectPathAndCopathResolution_coord hlen hd' hi] at hfdp
    have hsame : (fdp.map fun p => { p with resolution := filterNewLeaves p.resolution [n] }) =
        fdp.map fun p => { p with resolution := filterNewLeaves p.resolution [] } := by
      refine List.map_congr_left fun p hp => ?_
      rw [← Except.ok.inj hfdp] at hp
      obtain ⟨m, -, rfl⟩ := List.mem_map.mp hp
      rw [hfilter _ fun hmem => ht.resolution_ne_none hmem hn]
    simp only [ok_bind, hsame]

/-- The leaf a new member would take is blank, or beyond the tree. -/
theorem findBlankLeafNodeIndexOrExtend_blank (hlen : t.length = size d) :
    ∃ l, findBlankLeafNodeIndexOrExtend t = leafToNodeIndex l ∧ slot t 0 l = none := by
  unfold findBlankLeafNodeIndexOrExtend
  cases hfind : findBlankLeafNodeIndex t with
  | some n =>
    obtain ⟨l, rfl, -, hnone, -⟩ := findBlankLeafNodeIndex_some hfind
    exact ⟨l, by rw [leafToNodeIndex_eq]; rfl, hnone⟩
  | none =>
    refine ⟨2 ^ d, ?_, ?_⟩
    · have hsize : size d + 1 = 2 ^ d * 2 := by rw [InOrder.size_add_one, pow_succ]
      rw [Option.getD_none, hlen, leafToNodeIndex]
      exact_mod_cast hsize
    · refine slot_eq_none_of_le (not_lt.mp fun hlt => ?_)
      rw [hlen, InOrder.leaf_lt_size] at hlt
      exact lt_irrefl _ hlt

/-- Who holds the keys of the tree a path is written over derives the commit secret from it. -/
theorem updatePrivateKeyPath_receives (ht : Typed t) (hlen : t.length = size d) (hd : d ≤ 31)
    (h : createUpdatePath t i gc cs key coins (excluded.map leafToNodeIndex) patch = .ok created)
    (hsender : toPrivateKeyPath (pathToPathSecrets created.pathSecrets) i cs none = .ok sender)
    (hsecret : commitSecretOf created.pathSecrets cs.kdf = .ok commitSecret)
    (hne : path.leafIndex ≠ i) (hl : slot t 0 path.leafIndex ≠ none)
    (hnot : path.leafIndex ∉ excluded)
    (hkeys : KeepsKeys cs.hpke t path.leafIndex path.privateKeys) :
    ∃ pathKeys, updatePrivateKeyPath cs created.tree path i (pathContext gc created.treeHash)
      created.updatePath (excluded.map leafToNodeIndex) =
        .ok { pathKeys := pathKeys, commitSecret := commitSecret } := by
  obtain ⟨x, pathSecret, node, hreceives⟩ : ∃ x pathSecret node, ReceivesSecret cs t i gc
      (excluded.map leafToNodeIndex) created (pruneBlankedNodes path t) x pathSecret node :=
    createUpdatePath_receives hlen hd ht h hne hl hnot hkeys.pruned
  obtain ⟨hdistinct, hyields, -⟩ := createUpdatePath_yields hlen hd h
  obtain ⟨along, halong, hsecrets, hlast⟩ := hreceives.along
  have hreceived : applyUpdatePathSecret created.tree path i (pathContext gc created.treeHash)
      created.updatePath (excluded.map leafToNodeIndex) cs =
        .ok { nodeIndex := pathSecret.nodeIndex, pathSecret := pathSecret.secret } := by
    rw [← hreceives.received]
    obtain ⟨resolution, hresolution, hancestor⟩ := hreceives.ancestor
    have hmatch : firstMatchAncestor created.tree path.leafIndex i created.updatePath = .ok
        { nodeIndex := pathSecret.nodeIndex, resolution := resolution, updateNode := some node } :=
      hancestor
    simp only [applyUpdatePathSecret, hmatch, ok_bind, hresolution, pruneBlankedNodes]
    rw [decryptPathSecret_pruned fun r hr => hreceives.sendTo hlen hd h _ (List.of_mem_zip hr).1]
  obtain ⟨pathKeys, hpathKeys⟩ : ∃ pathKeys, toPrivateKeyPath along.pathSecrets path.leafIndex cs
      (some created.tree) = .ok pathKeys := by
    obtain ⟨senderArray, hmap, -⟩ := bind_eq_ok.mp hsender
    obtain ⟨asArray, hasArray⟩ := mapM_returns (f := toPrivateKey cs (some created.tree))
      (l := along.pathSecrets.entries) fun entry hentry => by
        obtain ⟨p, hp, hindex, hsecret, -⟩ :=
          (hsecrets entry.1 entry.2).mp (Record.get_eq_some.mpr hentry)
        obtain ⟨k, node, keys, hk, hnode, -, hpair, hpublic⟩ := hyields p hp
        have hplace : nodeAt created.tree p.nodeIndex = some node := by
          rw [hk, nodeAt_coord, hnode]
        have hkept : (p.nodeIndex, p.secret) ∈ (pathToPathSecrets created.pathSecrets).entries := by
          rw [← Record.get_eq_some, pathToPathSecrets_get hdistinct]
          exact ⟨p, hp, rfl, rfl⟩
        obtain ⟨result, -, hresult⟩ := exists_mem_of_mapM hmap _ hkept
        refine ⟨result, ?_⟩
        rw [← hresult, ← toPrivateKey_verified hpair hplace hpublic, hindex, hsecret]
    exact ⟨_, by rw [toPrivateKeyPath, hasArray]; rfl⟩
  have hderived : deriveSecret along.lastSecret "path" cs.kdf = .ok commitSecret := by
    unfold commitSecretOf at hsecret
    cases hget : created.pathSecrets.getLast? with
    | none =>
      rw [hget] at hlast
      cases hlast
    | some lastPathSecret =>
      rw [hget] at hlast hsecret
      rw [← Option.some.inj hlast]
      exact hsecret
  refine ⟨pathKeys, ?_⟩
  simp only [updatePrivateKeyPath, hreceived, ok_bind, halong, hderived, hpathKeys]
  rfl

end

section
variable {cs : CiphersuiteImpl} {state : ClientState cs.signature} {applied : ApplyProposalsResult}
  {patch : Option (ResolvedLeafNodePatch cs.signature)} {coins : PathCoins} {path : CommitPath cs}
  {privatePath ownPath : PrivateKeyPath} {commitSecret treeHash : Bytes}

/-- The committer's path is sealed as if it excluded what its receivers exclude. -/
theorem createCommitPath_commitExcludeNodes {d l : ℕ} {patch : ResolvedLeafNodePatch cs.signature}
    {created : CreatedPath cs} {groupContext : GroupContext} (ht : Represented applied.tree)
    (hlen : applied.tree.length = size d) (hd : d ≤ 31)
    (hmember : ∀ externalInitSecret newMemberLeafIndex priorCredential, applied.additionalResult ≠
      .externalCommit externalInitSecret newMemberLeafIndex priorCredential)
    (hl : slot applied.tree 0 l ≠ none)
    (hnot : l ∉ (addedLeafNodes applied.additionalResult).map Prod.fst)
    (h : createUpdatePath applied.tree state.privatePath.leafIndex groupContext cs
      state.signaturePrivateKey coins
      ((addedLeafNodes applied.additionalResult).map fun l => leafToNodeIndex l.1) patch =
      .ok created) :
    ∃ excluded : List ℕ, commitExcludeNodes applied = excluded.map leafToNodeIndex ∧ l ∉ excluded ∧
      createUpdatePath applied.tree state.privatePath.leafIndex groupContext cs
        state.signaturePrivateKey coins (excluded.map leafToNodeIndex) patch = .ok created := by
  cases hdata : applied.additionalResult with
  | memberCommit added context =>
    rw [hdata] at h hnot
    refine ⟨added.map Prod.fst, ?_, hnot, ?_⟩
    · rw [commitExcludeNodes, hdata, List.map_map]
      rfl
    · rw [List.map_map]
      exact h
  | externalCommit externalInitSecret newMemberLeafIndex priorCredential =>
    exact absurd hdata (hmember _ _ _)
  | reinit reinit =>
    obtain ⟨blank, hblank, hnone⟩ := findBlankLeafNodeIndexOrExtend_blank hlen
    rw [hdata] at h
    refine ⟨[blank], ?_, ?_, createUpdatePath_excludes_blank ht hlen hd ?_ h⟩
    · rw [commitExcludeNodes, hdata, hblank]
      rfl
    · rintro hmem
      exact hl (List.mem_singleton.mp hmem ▸ hnone)
    · rw [leafToNodeIndex_eq, nodeAt_coord, hnone]

/-- A commit's path leads a member that holds the keys of the tree with the proposals to the
committer's tree and commit secret. -/
theorem applyTreeUpdate_committed (ht : Reachable applied.tree)
    (h : createCommitPath cs state applied patch coins = .ok path)
    (hsender : committerPrivatePath state.privatePath path = .ok privatePath)
    (hsecret : commitSecretOf path.pathSecrets cs.kdf = .ok commitSecret)
    (hhash : commitTreeHash path = .ok treeHash)
    (hfresh : ∀ update, path.updatePath = some update → FreshKeys applied.tree update)
    (hmember : ∀ externalInitSecret newMemberLeafIndex priorCredential, applied.additionalResult ≠
      .externalCommit externalInitSecret newMemberLeafIndex priorCredential)
    (hne : ownPath.leafIndex ≠ state.privatePath.leafIndex)
    (hl : slot applied.tree 0 ownPath.leafIndex ≠ none)
    (hnot : ownPath.leafIndex ∉ (addedLeafNodes applied.additionalResult).map Prod.fst)
    (hkeys : KeepsKeys cs.hpke applied.tree ownPath.leafIndex ownPath.privateKeys) :
    ∃ pathKeys, applyTreeUpdate cs path.updatePath (.member state.privatePath.leafIndex)
      applied.tree ownPath (groupContextWithExtensions state.groupContext applied.additionalResult)
      (commitExcludeNodes applied) = .ok {
        pathKeys := pathKeys
        commitSecret := commitSecret
        tree := path.tree
        treeHash := treeHash } := by
  obtain ⟨-, rfl⟩ | ⟨patch', created, hcreate, rfl⟩ := createCommitPath_cases h
  · obtain rfl := Except.ok.inj hsecret
    refine ⟨none, ?_⟩
    change treeHashRoot applied.tree cs.hash = .ok treeHash at hhash
    simp only [applyTreeUpdate, hhash, ok_bind]
    rfl
  · obtain ⟨hinvariant, d, hg⟩ := ht.invariant
    obtain ⟨_, -, hsender⟩ := bind_eq_ok.mp hsender
    obtain ⟨pathKeys, hpathKeys, -⟩ := bind_eq_ok.mp hsender
    obtain ⟨-, -, hroot⟩ := createUpdatePath_spec hg.length hg.depth hcreate
    have happly := createUpdatePath_applies hg.length hg.depth hinvariant.isCovered hcreate
      (hfresh _ rfl)
    obtain rfl : created.treeHash = treeHash := Except.ok.inj hhash
    obtain ⟨excluded, hexclude, hnot, hcreate⟩ := createCommitPath_commitExcludeNodes
      hinvariant.represented hg.length hg.depth hmember hl hnot hcreate
    rw [hexclude]
    obtain ⟨received, hreceived⟩ := updatePrivateKeyPath_receives hinvariant.typed hg.length
      hg.depth hcreate hpathKeys hsecret hne hl hnot hkeys
    refine ⟨some received, ?_⟩
    change applyTreeUpdate cs (some created.updatePath) _ _ _ _ _ = _
    simp only [applyTreeUpdate, happly, ok_bind, applyUpdatedTree, hroot]
    rw [pathContext] at hreceived
    rw [hreceived]
    rfl

end

/-! ## The proposals -/

/-- What a commit's proposals come to is the same, as far as the next epoch depends on it. -/
structure SameEffect (applied applied' : ApplyProposalsResult) : Prop where
  tree : applied'.tree = applied.tree
  pskSecret : applied'.pskSecret = applied.pskSecret
  needsUpdatePath : applied'.needsUpdatePath = applied.needsUpdatePath
  additionalResult : applied'.additionalResult = applied.additionalResult

section
variable {cs : CiphersuiteImpl} {state follower : ClientState cs.signature}
  {m m' : TreeMutations} {acc r r' : RatchetTree × List (ℕ × KeyPackage)} {add : Sent KeyPackage}
  {applied applied' : ApplyProposalsResult} {allProposals : List ProposalWithSender}
  {grouped : Proposals} {committerLeafIndex : Option ℕ} {pskIndex pskSearch : PskIndex}
  {sentByClient sentByClient' : Bool} {currentTime currentTime' : ℤ}

theorem applyAdd_same (h : applyAdd cs m acc add = .ok r) (h' : applyAdd cs m' acc add = .ok r') :
    r' = r := by
  obtain ⟨_, -, h⟩ := bind_eq_ok.mp h
  obtain ⟨_, -, h⟩ := bind_eq_ok.mp h
  obtain ⟨⟨tree, nodeIndex⟩, hadd, h⟩ := bind_eq_ok.mp h
  obtain ⟨_, -, h'⟩ := bind_eq_ok.mp h'
  obtain ⟨_, -, h'⟩ := bind_eq_ok.mp h'
  obtain ⟨⟨tree', nodeIndex'⟩, hadd', h'⟩ := bind_eq_ok.mp h'
  obtain ⟨rfl, rfl⟩ := Prod.mk.inj (Except.ok.inj (hadd.symm.trans hadd'))
  exact Except.ok.inj (h'.symm.trans h)

/-- Members check an Add in different ways, but it has one effect. -/
theorem foldlM_applyAdd_same {adds : List (Sent KeyPackage)}
    (h : adds.foldlM (applyAdd cs m) acc = .ok r) (h' : adds.foldlM (applyAdd cs m') acc = .ok r') :
    r' = r := by
  induction adds generalizing acc with
  | nil => exact Except.ok.inj (h'.symm.trans h)
  | cons add adds ih =>
    rw [List.foldlM_cons] at h h'
    obtain ⟨next, hnext, h⟩ := bind_eq_ok.mp h
    obtain ⟨next', hnext', h'⟩ := bind_eq_ok.mp h'
    obtain rfl := applyAdd_same hnext hnext'
    exact ih h h'

theorem applyMemberProposals_same (htree : follower.ratchetTree = state.ratchetTree)
    (hcontext : follower.groupContext = state.groupContext)
    (hfound : ∀ id key, pskIndex.findPsk id = some key → pskSearch.findPsk id = some key)
    (h : applyMemberProposals cs state allProposals grouped committerLeafIndex pskIndex sentByClient
      currentTime = .ok applied)
    (h' : applyMemberProposals cs follower allProposals grouped committerLeafIndex pskSearch
      sentByClient' currentTime' = .ok applied') : SameEffect applied applied' := by
  obtain ⟨hids, hpsk⟩ := accumulatePskSecret_found hfound (applyMemberProposals_psk h)
  have hpsk' := applyMemberProposals_psk h'
  rw [hids] at hpsk
  obtain ⟨hsecret, -⟩ := Prod.mk.inj (Except.ok.inj (hpsk.symm.trans hpsk'))
  obtain ⟨tree, added, _, _, -, hmutated, rfl⟩ := applyMemberProposals_eq_ok h
  obtain ⟨tree', added', _, _, -, hmutated', rfl⟩ := applyMemberProposals_eq_ok h'
  obtain ⟨start, hchanges, hadds⟩ := applyTreeMutations_changes hmutated
  obtain ⟨start', hchanges', hadds'⟩ := applyTreeMutations_changes hmutated'
  rw [htree] at hchanges'
  obtain rfl := Except.ok.inj (hchanges.symm.trans hchanges')
  obtain ⟨rfl, rfl⟩ := Prod.mk.inj (foldlM_applyAdd_same hadds hadds')
  exact ⟨rfl, hsecret.symm, rfl, by rw [hcontext]⟩

/-- A member's commit applies its ReInit alone, or the other proposals. -/
theorem applyGroupedProposals_member {proposals : List ProposalOrRef}
    {newMemberLeafNode : Option LeafNode}
    (hmember : ∀ externalInitSecret newMemberLeafIndex priorCredential, applied.additionalResult ≠
      .externalCommit externalInitSecret newMemberLeafIndex priorCredential)
    (h : applyGroupedProposals cs state proposals allProposals committerLeafIndex pskIndex
      sentByClient newMemberLeafNode currentTime = .ok applied) :
    ¬(groupProposals allProposals).external_init.length > 0 ∧
      ((groupProposals allProposals).reinit = [] ∧ applyMemberProposals cs state allProposals
          (groupProposals allProposals) committerLeafIndex pskIndex sentByClient currentTime =
            .ok applied ∨
        ∃ reinit rest, (groupProposals allProposals).reinit = reinit :: rest ∧
          applyReinit cs state allProposals reinit.proposal = .ok applied) := by
  simp only [applyGroupedProposals] at h
  by_cases hexternal : (groupProposals allProposals).external_init.length > 0
  · rw [if_pos hexternal] at h
    split_ifs at h
    obtain ⟨-, _, _, _, hdata⟩ := applyExternalProposals_eq_ok h
    exact absurd hdata (hmember _ _ _)
  · rw [if_neg hexternal] at h
    refine ⟨hexternal, ?_⟩
    cases hreinit : (groupProposals allProposals).reinit with
    | nil =>
      rw [hreinit] at h
      exact .inl ⟨rfl, h⟩
    | cons reinit rest =>
      rw [hreinit] at h
      exact .inr ⟨reinit, rest, rfl, h⟩

/-- Two members of one epoch that can apply a member's commit do it to the same effect. -/
theorem applyProposals_same {proposals : List ProposalOrRef} {newMemberLeafNode : Option LeafNode}
    (htree : follower.ratchetTree = state.ratchetTree)
    (hcontext : follower.groupContext = state.groupContext)
    (hfound : ∀ id key, pskIndex.findPsk id = some key → pskSearch.findPsk id = some key)
    (hresolved : resolveProposals follower committerLeafIndex .member proposals =
      resolveProposals state committerLeafIndex .member proposals)
    (hmember : ∀ externalInitSecret newMemberLeafIndex priorCredential, applied.additionalResult ≠
      .externalCommit externalInitSecret newMemberLeafIndex priorCredential)
    (h : applyProposals cs state proposals committerLeafIndex pskIndex sentByClient none .member
      currentTime = .ok applied)
    (h' : applyProposals cs follower proposals committerLeafIndex pskSearch sentByClient'
      newMemberLeafNode .member currentTime' = .ok applied') : SameEffect applied applied' := by
  obtain ⟨allProposals, hall, -, h⟩ := applyProposals_eq_ok h
  obtain ⟨allProposals', hall', -, h'⟩ := applyProposals_eq_ok h'
  obtain rfl := Except.ok.inj (hall.symm.trans (hresolved.symm.trans hall'))
  obtain ⟨hmembers, hcases⟩ := applyGroupedProposals_member hmember h
  simp only [applyGroupedProposals, if_neg hmembers] at h'
  rcases hcases with ⟨hreinit, h⟩ | ⟨reinit, rest, hreinit, h⟩
  · rw [hreinit] at h'
    exact applyMemberProposals_same htree hcontext hfound h h'
  · rw [hreinit] at h'
    obtain ⟨_, -, h⟩ := bind_eq_ok.mp h
    obtain ⟨_, -, h'⟩ := bind_eq_ok.mp h'
    rw [← Except.ok.inj h, ← Except.ok.inj h']
    exact ⟨htree, rfl, rfl, rfl⟩

end

/-! ## The next epoch -/

section
variable {cs : CiphersuiteImpl}

/-- The commit that is sent. -/
def CommitParts.commit (p : CommitParts cs) : Commit where
  proposals := p.proposals
  path := p.path.updatePath

/-- The commit as a receiver reads it. -/
def CommitParts.content (p : CommitParts cs) (options : CreateCommitOptions cs.signature)
    (result : CreateCommitResult cs.signature) : AuthenticatedContent where
  wireformat := commitWireformat options.wireAsPublicMessage
  content := p.framedContent
  auth := { signature := p.signature, content := .commit result.newState.confirmationTag }

/-- The next epoch as a receiver derives it, with the keys it finds on the path. -/
def CommitParts.nextEpoch (p : CommitParts cs) (result : CreateCommitResult cs.signature)
    (pathKeys : Option PrivateKeyPath) : NextEpoch where
  update := {
    pathKeys := pathKeys
    commitSecret := p.commitSecret
    tree := p.path.tree
    treeHash := p.treeHash }
  groupContext := result.newState.groupContext
  epochSecrets := p.epochSecrets
  secretTree := result.newState.secretTree
  confirmationTag := result.newState.confirmationTag

/-- The commit with what a receiver makes of it. -/
def CommitParts.followed (p : CommitParts cs) (options : CreateCommitOptions cs.signature)
    (result : CreateCommitResult cs.signature) (applied : ApplyProposalsResult)
    (pathKeys : Option PrivateKeyPath) : FollowedCommit cs where
  content := p.content options result
  commit := p.commit
  wireformat := commitWireformat options.wireAsPublicMessage
  applied := applied
  next := p.nextEpoch result pathKeys

/-- A member has nothing against the commit: it can apply the proposals, its checks pass the
committer's new leaf, its own leaf stays, and the application agrees. -/
structure CommitParts.Accepted (p : CommitParts cs) (committer : ℕ)
    (follower : ClientState cs.signature) (pskSearch : PskIndex)
    (onMessage : IncomingMessageCallback) (currentTime : ℤ) (applied : ApplyProposalsResult) :
    Prop where
  applied_eq : applyProposals cs follower p.proposals (some committer) pskSearch false
    (p.path.updatePath.map fun path => path.leafNode.leaf) .member currentTime = .ok applied
  leaf : validateCommitPath cs follower (.member committer) applied p.path.updatePath = .ok ()
  stays : applied.selfRemoved = false
  kept : follower.privatePath.leafIndex ∉ (addedLeafNodes applied.additionalResult).map Prod.fst
  action : onMessage (.commit applied.allProposals
    (authenticatedCommitter (.member committer) applied.additionalResult)) = .accept

variable {state follower : ClientState cs.signature} {pskIndex pskSearch : PskIndex}
  {options : CreateCommitOptions cs.signature} {coins : CommitCoins} {currentTime currentTime' : ℤ}
  {result : CreateCommitResult cs.signature} {p : CommitParts cs} {applied' : ApplyProposalsResult}
  {onMessage : IncomingMessageCallback}

theorem commitInitSecret_member {data : ApplyProposalsData} (state : ClientState cs.signature)
    (hmember : ∀ externalInitSecret newMemberLeafIndex priorCredential, data ≠
      .externalCommit externalInitSecret newMemberLeafIndex priorCredential) :
    commitInitSecret state data = state.keySchedule.initSecret := by
  cases data with
  | externalCommit externalInitSecret newMemberLeafIndex priorCredential =>
    exact absurd rfl (hmember _ _ _)
  | _ => rfl

/-- What the committer signs is the commit. -/
theorem CommitParts.Announces.framedContent_eq (h : p.Announces state options coins result) :
    p.framedContent = {
      groupId := state.groupContext.groupId
      epoch := state.groupContext.epoch
      sender := .member state.privatePath.leafIndex
      authenticatedData := options.authenticatedData
      info := .commit p.commit } ∧
    signFramedContentTBS cs.signature coins.signature state.signaturePrivateKey
      (toTbs p.framedContent (commitWireformat options.wireAsPublicMessage) state.groupContext) =
        .ok p.signature := by
  obtain ⟨signature, hsignature, hsigned⟩ := bind_eq_ok.mp h.signed
  obtain ⟨hframed, hsame⟩ := CommitSignature.mk.inj (Except.ok.inj hsigned)
  rw [← hframed, ← hsame]
  exact ⟨rfl, hsignature⟩

theorem CommitParts.Announces.sender_eq (h : p.Announces state options coins result) :
    p.framedContent.sender = .member state.privatePath.leafIndex := by
  rw [h.framedContent_eq.1]

/-- A member whose leaf stays is not removed. -/
theorem CommitParts.Accepted.not_removed {allProposals : List ProposalWithSender}
    (hpath : OwnsPath cs.hpke follower)
    (hall : resolveProposals follower (some state.privatePath.leafIndex) .member p.proposals =
      .ok allProposals)
    (h : p.Accepted state.privatePath.leafIndex follower pskSearch onMessage currentTime' applied')
    (hmember : ∀ externalInitSecret newMemberLeafIndex priorCredential, applied'.additionalResult ≠
      .externalCommit externalInitSecret newMemberLeafIndex priorCredential) :
    .remove follower.privatePath.leafIndex ∉ proposedChanges (groupProposals allProposals) := by
  intro hremove
  obtain ⟨-, hrefilled⟩ := applyProposals_removed hpath.tree hpath.leaf hall h.applied_eq hremove
  refine h.kept (hrefilled fun hnone => ?_)
  have hstays := h.stays
  obtain ⟨_, hall', -, happlied⟩ := applyProposals_eq_ok h.applied_eq
  obtain rfl := Except.ok.inj (hall.symm.trans hall')
  obtain ⟨-, ⟨-, happlied⟩ | ⟨reinit, rest, hreinit, happlied⟩⟩ :=
    applyGroupedProposals_member hmember happlied
  · obtain ⟨tree, added, _, _, -, -, rfl⟩ := applyMemberProposals_eq_ok happlied
    dsimp only at hstays hnone
    rw [leafToNodeIndex_eq, nodeAt_coord, hnone] at hstays
    cases hstays
  · rw [(applyReinit_changes hreinit happlied).1] at hremove
    cases hremove

/-- What a member derives of a commit that it has nothing against is the committer's epoch. -/
theorem CommitParts.Accepted.derives (hfit : FittingSuite cs)
    (hkeys : HoldsOwnKeys cs.hpke follower) (hshares : SharesEpoch state follower)
    (hother : follower.privatePath.leafIndex ≠ state.privatePath.leafIndex)
    (hcreates : p.Creates state pskIndex options coins currentTime result)
    (hannounces : p.Announces state options coins result)
    (hsame : SameEffect p.applied applied')
    (hfresh : ∀ update, p.path.updatePath = some update → FreshKeys p.applied.tree update)
    (h : p.Accepted state.privatePath.leafIndex follower pskSearch onMessage currentTime'
      applied') :
    ∃ pathKeys, deriveNextEpoch cs follower (p.content options result) p.commit
      (commitWireformat options.wireAsPublicMessage) applied' =
        .ok (p.nextEpoch result pathKeys) := by
  have hmember : ∀ externalInitSecret newMemberLeafIndex priorCredential,
      applied'.additionalResult ≠
        .externalCommit externalInitSecret newMemberLeafIndex priorCredential := by
    rw [hsame.additionalResult]
    exact hcreates.notExternal
  obtain ⟨allProposals, hall, -⟩ := applyProposals_eq_ok h.applied_eq
  obtain ⟨hleaf, hkeeps⟩ := ownPrivatePath_keeps hkeys.path.tree hkeys.path.leaf hkeys.path.keys
    hkeys.pending hall h.applied_eq (fun _ _ => rfl) (h.not_removed hkeys.path hall hmember)
  obtain ⟨start, -, hadded⟩ := applyProposals_leaves hkeys.path.tree hall h.applied_eq
  have hreachable := hadded.tree
  have hkept := h.kept
  dsimp only at hreachable
  have hindex := ownPrivatePath_leafIndex follower p.proposals
  rw [hsame.tree] at hreachable hleaf hkeeps
  rw [hsame.additionalResult] at hkept
  rw [← hindex] at hleaf hkeeps hkept hother
  obtain ⟨pathKeys, hupdate⟩ := applyTreeUpdate_committed hreachable hcreates.path
    hcreates.privatePath hcreates.commitSecret hannounces.treeHash hfresh hcreates.notExternal
    hother hleaf hkept hkeeps
  have hexclude : commitExcludeNodes p.applied = commitExcludeNodes applied' := by
    rw [commitExcludeNodes, commitExcludeNodes, hsame.additionalResult, hsame.tree]
  rw [← hsame.tree, ← hsame.additionalResult, hexclude, ← hshares.groupContext,
    ← hannounces.sender_eq] at hupdate
  have hcontext := hcreates.groupContext
  have hsecrets := hcreates.epochSecrets
  rw [← hshares.groupContext, ← hshares.confirmationTag, ← hsame.additionalResult] at hcontext
  rw [← hshares.keySchedule, ← hsame.pskSecret,
    ← commitInitSecret_member follower hmember] at hsecrets
  have hverified : verifyConfirmationTag p.epochSecrets.keySchedule.confirmationKey
      result.newState.confirmationTag result.newState.groupContext.confirmedTranscriptHash
      cs.hash = true := by
    rw [hannounces.confirmationTag]
    exact hfit.mac _ _
  refine ⟨pathKeys, ?_⟩
  simp only [deriveNextEpoch, CommitParts.content, CommitParts.commit, hupdate, ok_bind, hcontext,
    hsecrets, hverified, Bool.not_true, Bool.false_eq_true, if_false, hcreates.secretTree]
  rfl

/-- A commit whose steps succeed is processed. -/
theorem FollowedCommit.Follows.processCommit {f : FollowedCommit cs}
    (h : f.Follows follower pskSearch currentTime)
    (haction : onMessage (.commit f.applied.allProposals
      (authenticatedCommitter f.content.content.sender f.applied.additionalResult)) = .accept) :
    processCommit cs follower f.content f.commit f.wireformat pskSearch onMessage currentTime =
      .ok {
        newState := f.newState follower
        actionTaken := .accept
        committer := some
          (authenticatedCommitter f.content.content.sender f.applied.additionalResult) } := by
  have hgiven : ¬(f.applied.needsUpdatePath = true ∧ f.commit.path = none) :=
    fun hboth => h.needsUpdatePath hboth.1 hboth.2
  have hfollowed : followCommit cs follower f.content f.commit f.wireformat f.applied =
      .ok (f.newState follower) := by
    simp only [followCommit, h.path, ok_bind, if_neg hgiven, h.notRemoved, Bool.false_eq_true,
      if_false, h.next]
    rfl
  simp only [WebcryptoMls.processCommit, if_neg (not_not.mpr h.epoch), h.applied, ok_bind, haction,
    hfollowed]
  rfl

/-- A member that has nothing against a commit can follow it. -/
theorem CommitParts.Accepted.follows (hfit : FittingSuite cs)
    (hkeys : HoldsOwnKeys cs.hpke follower) (hshares : SharesEpoch state follower)
    (hother : follower.privatePath.leafIndex ≠ state.privatePath.leafIndex)
    (hcreates : p.Creates state pskIndex options coins currentTime result)
    (hannounces : p.Announces state options coins result)
    (hsame : SameEffect p.applied applied')
    (hfresh : ∀ update, p.path.updatePath = some update → FreshKeys p.applied.tree update)
    (h : p.Accepted state.privatePath.leafIndex follower pskSearch onMessage currentTime'
      applied') :
    ∃ pathKeys, (p.followed options result applied' pathKeys).Follows follower pskSearch
      currentTime' := by
  obtain ⟨pathKeys, hnext⟩ :=
    h.derives hfit hkeys hshares hother hcreates hannounces hsame hfresh
  have hsender := hannounces.sender_eq
  have hepoch : p.framedContent.epoch = follower.groupContext.epoch := by
    rw [hannounces.framedContent_eq.1, hshares.groupContext]
  have hneeds : applied'.needsUpdatePath = true → p.path.updatePath ≠ none := by
    rw [hsame.needsUpdatePath]
    intro hneeds hnone
    obtain ⟨hnot, -⟩ | ⟨patch, created, -, hpath⟩ := createCommitPath_cases hcreates.path
    · rw [hneeds] at hnot
      cases hnot
    · rw [hpath] at hnone
      cases hnone
  refine ⟨pathKeys, hepoch, ?_, ?_, hneeds, h.stays, hnext⟩
  · change applyProposals cs follower p.proposals (getSenderLeafNodeIndex p.framedContent.sender)
      pskSearch false _ p.framedContent.sender.senderType currentTime' = .ok applied'
    rw [hsender]
    exact h.applied_eq
  · change validateCommitPath cs follower p.framedContent.sender applied' p.path.updatePath = .ok ()
    rw [hsender]
    exact h.leaf

/-- A member that has nothing against a commit is taken to the epoch of the committer. -/
theorem CommitParts.Accepted.processed (hfit : FittingSuite cs)
    (hkeys : HoldsOwnKeys cs.hpke follower) (hshares : SharesEpoch state follower)
    (hother : follower.privatePath.leafIndex ≠ state.privatePath.leafIndex)
    (hcreates : p.Creates state pskIndex options coins currentTime result)
    (hannounces : p.Announces state options coins result)
    (hfound : ∀ id key, pskIndex.findPsk id = some key → pskSearch.findPsk id = some key)
    (hresolved : resolveProposals follower (some state.privatePath.leafIndex) .member p.proposals =
      resolveProposals state (some state.privatePath.leafIndex) .member p.proposals)
    (hfresh : ∀ update, p.path.updatePath = some update → FreshKeys p.applied.tree update)
    (h : p.Accepted state.privatePath.leafIndex follower pskSearch onMessage currentTime'
      applied') :
    ∃ later : ClientState cs.signature,
      processCommit cs follower (p.content options result) p.commit
        (commitWireformat options.wireAsPublicMessage) pskSearch onMessage currentTime' = .ok {
          newState := later
          actionTaken := .accept
          committer := some (authenticatedCommitter (.member state.privatePath.leafIndex)
            applied'.additionalResult) } ∧
      SharesEpoch result.newState later ∧
      HoldsKeys cs.hpke later.ratchetTree follower.privatePath.leafIndex
        later.privatePath.privateKeys := by
  have hsame : SameEffect p.applied applied' := applyProposals_same hshares.ratchetTree
    hshares.groupContext hfound hresolved hcreates.notExternal hcreates.applied h.applied_eq
  obtain ⟨pathKeys, hfollows⟩ :=
    h.follows hfit hkeys hshares hother hcreates hannounces hsame hfresh
  obtain ⟨hpath, hindex⟩ := hfollows.ownsPath hfit.keyPairs hkeys.path hkeys.pending
  have hsender : (p.followed options result applied' pathKeys).content.content.sender =
      .member state.privatePath.leafIndex := hannounces.sender_eq
  refine ⟨(p.followed options result applied' pathKeys).newState follower, ?_, ?_, ?_⟩
  · have haction := h.action
    rw [← hsender] at haction
    have hprocessed := hfollows.processCommit haction
    rw [hsender] at hprocessed
    exact hprocessed
  · exact ⟨rfl, hcreates.ratchetTree.symm, hcreates.keySchedule.symm, rfl⟩
  · rw [← hindex]
    exact hpath.keys

/-- A commit that is created takes a member that holds the keys of its own path, and has nothing
against the commit, to the epoch of the committer. -/
theorem created_commit_followed {first : ClientState cs.signature} (hfit : FittingSuite cs)
    (hbegins : Begins cs first) (hrun : OrderlyRun cs first follower)
    (hshares : SharesEpoch state follower)
    (hother : follower.privatePath.leafIndex ≠ state.privatePath.leafIndex)
    (h : createCommit cs state pskIndex options coins currentTime = .ok result) :
    ∃ p : CommitParts cs, p.Bundles state options currentTime result ∧
      p.Creates state pskIndex options coins currentTime result ∧
      p.Announces state options coins result ∧
      ∀ (pskSearch : PskIndex) (onMessage : IncomingMessageCallback) (currentTime' : ℤ)
        (applied' : ApplyProposalsResult),
        (∀ id key, pskIndex.findPsk id = some key → pskSearch.findPsk id = some key) →
        resolveProposals follower (some state.privatePath.leafIndex) .member p.proposals =
          resolveProposals state (some state.privatePath.leafIndex) .member p.proposals →
        (∀ update, p.path.updatePath = some update → FreshKeys p.applied.tree update) →
        p.Accepted state.privatePath.leafIndex follower pskSearch onMessage currentTime' applied' →
        ∃ later : ClientState cs.signature,
          processCommit cs follower (p.content options result) p.commit
            (commitWireformat options.wireAsPublicMessage) pskSearch onMessage currentTime' = .ok {
              newState := later
              actionTaken := .accept
              committer := some (authenticatedCommitter (.member state.privatePath.leafIndex)
                applied'.additionalResult) } ∧
          SharesEpoch result.newState later ∧
          HoldsKeys cs.hpke later.ratchetTree follower.privatePath.leafIndex
            later.privatePath.privateKeys := by
  obtain ⟨hkeys, -⟩ := hrun.holdsOwnKeys hfit.keyPairs (hbegins.holdsOwnKeys hfit.keyPairs)
  obtain ⟨p, hbundles, hcreates, hannounces⟩ := createCommit_announces h
  exact ⟨p, hbundles, hcreates, hannounces,
    fun pskSearch onMessage currentTime' applied' hfound hresolved hfresh haccepted =>
      haccepted.processed hfit hkeys hshares hother hcreates hannounces hfound hresolved hfresh⟩

/-! ### Public commits -/

/-- What a member tags and signs is read in its epoch. -/
theorem unprotectPublicMessage_protected {content : AuthenticatedContent} {commit : Commit}
    {pm : PublicMessage} {membershipKey : Bytes} {groupContext : GroupContext} {tree : RatchetTree}
    {leaf : LeafNode} {l : ℕ}
    (hmac : ∀ key data, cs.hash.verifyMac key (cs.hash.mac key data) data = true)
    (hwireformat : content.wireformat = .mls_public_message)
    (hsender : content.content.sender = .member l) (hinfo : content.content.info = .commit commit)
    (hleaf : leafAt tree l = some leaf)
    (hsigned : verifyFramedContentSignature leaf.signaturePublicKey .mls_public_message
      content.content content.auth groupContext cs.signature = .ok true)
    (h : protectPublicMessage membershipKey groupContext content cs = .ok pm) :
    pm.content = content.content ∧
      unprotectPublicMessage membershipKey groupContext tree pm cs = .ok content := by
  obtain ⟨wireformat, framed, auth⟩ := content
  obtain ⟨groupId, epoch, sender, authenticatedData, info⟩ := framed
  dsimp only at hwireformat hsender hinfo hsigned
  subst hwireformat hsender hinfo
  obtain ⟨tag, htag, h⟩ := bind_eq_ok.mp h
  obtain ⟨encoded, hencoded, htag⟩ := bind_eq_ok.mp htag
  obtain rfl := Except.ok.inj h
  obtain rfl := Except.ok.inj htag
  refine ⟨rfl, ?_⟩
  have hverified : membershipVerified membershipKey groupContext
      { content := ⟨groupId, epoch, .member l, authenticatedData, .commit commit⟩
        auth := auth
        info := .member (cs.hash.mac membershipKey encoded) } cs = .ok true := by
    simp only [membershipVerified, verifyMembershipTag, hencoded, ok_bind, hmac]
    rfl
  simp only [unprotectPublicMessage, FramedContent.contentType, FramedContentInfo.contentType,
    hverified, ok_bind, findSignaturePublicKey, getSignaturePublicKeyFromLeafIndex, hleaf, pure,
    Except.pure, hsigned, Bool.not_true, Bool.false_eq_true, if_false]

/-- A commit that is sent in the open is read as the commit that was created. -/
theorem CommitParts.Announces.read {leaf : LeafNode} (hfit : FittingSuite cs)
    (hpublic : options.wireAsPublicMessage = true)
    (hleaf : leafAt state.ratchetTree state.privatePath.leafIndex = some leaf)
    (hsignature : cs.signature.Matches state.signaturePrivateKey leaf.signaturePublicKey)
    (h : p.Announces state options coins result) :
    ∃ pm, result.commit = { version := .mls10, content := .mls_public_message pm } ∧
      pm.content = p.framedContent ∧
      unprotectPublicMessage state.keySchedule.membershipKey state.groupContext state.ratchetTree
        pm cs = .ok (p.content options result) := by
  obtain ⟨hframed, hsigned⟩ := h.framedContent_eq
  have hcommit := h.commit
  rw [hpublic] at hcommit
  obtain ⟨pm, hprotect, hcommit⟩ := bind_eq_ok.mp hcommit
  have hcontent : p.content options result = {
      wireformat := .mls_public_message
      content := p.framedContent
      auth := {
        signature := p.signature
        content := .commit result.newState.confirmationTag } } := by
    rw [CommitParts.content, hpublic]
    rfl
  rw [← hcontent] at hprotect
  rw [hpublic] at hsigned
  obtain ⟨hsame, hread⟩ := unprotectPublicMessage_protected hfit.mac (by rw [hcontent])
    h.sender_eq (congrArg FramedContent.info hframed) hleaf
    (verifyFramedContentSignature_of_signed hsignature (by rw [hcontent]; exact hsigned)) hprotect
  exact ⟨pm, (Except.ok.inj hcommit).symm, hsame, hread⟩

/-- A public commit reaches the other members: it takes each that holds the keys of its own path,
and has nothing against the commit, to the epoch of the committer. -/
theorem public_commit_delivered {first : ClientState cs.signature} {leaf : LeafNode}
    (hfit : FittingSuite cs) (hbegins : Begins cs first) (hrun : OrderlyRun cs first follower)
    (hshares : SharesEpoch state follower)
    (hother : follower.privatePath.leafIndex ≠ state.privatePath.leafIndex)
    (hactive : follower.groupActiveState = .active)
    (hleaf : leafAt state.ratchetTree state.privatePath.leafIndex = some leaf)
    (hsignature : cs.signature.Matches state.signaturePrivateKey leaf.signaturePublicKey)
    (hpublic : options.wireAsPublicMessage = true)
    (h : createCommit cs state pskIndex options coins currentTime = .ok result) :
    ∃ (p : CommitParts cs) (pm : PublicMessage),
      p.Bundles state options currentTime result ∧
      p.Creates state pskIndex options coins currentTime result ∧
      result.commit = { version := .mls10, content := .mls_public_message pm } ∧
      ∀ (pskSearch : PskIndex) (onMessage : IncomingMessageCallback) (currentTime' : ℤ)
        (applied' : ApplyProposalsResult),
        (∀ id key, pskIndex.findPsk id = some key → pskSearch.findPsk id = some key) →
        resolveProposals follower (some state.privatePath.leafIndex) .member p.proposals =
          resolveProposals state (some state.privatePath.leafIndex) .member p.proposals →
        (∀ update, p.path.updatePath = some update → FreshKeys p.applied.tree update) →
        p.Accepted state.privatePath.leafIndex follower pskSearch onMessage currentTime' applied' →
        ∃ later : ClientState cs.signature,
          processMessage cs (.mls_public_message pm) follower pskSearch onMessage currentTime' =
            .ok (.newState later .accept (some (authenticatedCommitter
              (.member state.privatePath.leafIndex) applied'.additionalResult))) ∧
          SharesEpoch result.newState later ∧
          HoldsKeys cs.hpke later.ratchetTree follower.privatePath.leafIndex
            later.privatePath.privateKeys := by
  obtain ⟨hkeys, -⟩ := hrun.holdsOwnKeys hfit.keyPairs (hbegins.holdsOwnKeys hfit.keyPairs)
  obtain ⟨p, hbundles, hcreates, hannounces⟩ := createCommit_announces h
  obtain ⟨pm, hsent, hcontent, hread⟩ := hannounces.read hfit hpublic hleaf hsignature
  refine ⟨p, pm, hbundles, hcreates, hsent, fun pskSearch onMessage currentTime' applied' hfound
    hresolved hfresh haccepted => ?_⟩
  obtain ⟨later, hprocessed, hlater⟩ := haccepted.processed hfit hkeys hshares hother hcreates
    hannounces hfound hresolved hfresh
  refine ⟨later, ?_, hlater⟩
  have hframed := hannounces.framedContent_eq.1
  rw [hpublic] at hprocessed
  rw [← hshares.groupContext] at hread hframed
  rw [← hshares.ratchetTree, ← hshares.keySchedule] at hread
  have hgroup : constantTimeEqual pm.content.groupId follower.groupContext.groupId = true := by
    rw [hcontent, hframed, constantTimeEqual_iff]
  have hepoch : ¬pm.content.epoch < follower.groupContext.epoch := by
    rw [hcontent, hframed]
    exact lt_irrefl _
  have hinfo : (p.content options result).content.info = .commit p.commit := by
    rw [CommitParts.content, hframed]
  have hresult : publicMessageResult cs follower pm pskSearch onMessage currentTime' =
      processCommit cs follower (p.content options result) p.commit .mls_public_message pskSearch
        onMessage currentTime' := by
    simp only [publicMessageResult, throwIfRemovedFromGroup, throwIfSuspendedPendingReinit, hactive,
      pure, Except.pure, ok_bind, hgroup, Bool.not_true, Bool.false_eq_true, if_false,
      if_neg hepoch, hread, hinfo]
  have hwire : commitWireformat true = .mls_public_message := rfl
  rw [hwire, ← hresult] at hprocessed
  simp only [processMessage, hprocessed, ok_bind]
  rfl

end

/-! ### A commit of the second member -/

structure Following where
  group : ClientState plainSuite.signature
  added : CreateCommitResult plainSuite.signature
  joined : ClientState plainSuite.signature
  pendingRefs : List Bytes
  applied : ApplyProposalsResult
  path : CommitPath plainSuite
  result : CreateCommitResult plainSuite.signature
  applied' : ApplyProposalsResult

def refreshOptions (publicMessage : Bool) : CreateCommitOptions plainSuite.signature where
  wireAsPublicMessage := publicMessage

/-- The second member joins with the Welcome it is sent and commits to a path of its own. -/
def following (publicMessage : Bool) : Except MlsError (KeyPackage × Following) := do
  let first ← plainKeyPackage 1
  let second ← plainKeyPackage 2
  let group ← createGroup plainSuite [] first (plainPrivateKeys 1) [] plainConfig []
  let added ← createCommit plainSuite group emptyPskIndex (welcomingOptions second)
    (plainCoins []) 0
  match added.welcome with
  | none => throw (usageError "No member was added")
  | some welcome => do
    let joined ← joinGroup plainSuite welcome second (plainPrivateKeys 2) emptyPskIndex
      welcomedOptions 0
    let pendingRefs ← filterPendingProposals plainSuite joined [] 0
    let applied ← applyProposals plainSuite joined (bundleAllProposals pendingRefs [])
      (some joined.privatePath.leafIndex) emptyPskIndex true none .member 0
    let path ← createCommitPath plainSuite joined applied none (plainCoins [4]).path
    let result ← createCommit plainSuite joined emptyPskIndex (refreshOptions publicMessage)
      (plainCoins [4]) 0
    let applied' ← applyProposals plainSuite added.newState (bundleAllProposals pendingRefs [])
      (some joined.privatePath.leafIndex) emptyPskIndex false
      (path.updatePath.map fun path => path.leafNode.leaf) .member 0
    validateCommitPath plainSuite added.newState (.member joined.privatePath.leafIndex) applied'
      path.updatePath
    pure (first, ⟨group, added, joined, pendingRefs, applied, path, result, applied'⟩)

/-- What of the run is left to be seen by looking. -/
def Following.expected (f : Following) : Bool :=
  decide (f.added.newState.groupContext = f.joined.groupContext) &&
    decide (f.added.newState.ratchetTree = f.joined.ratchetTree) &&
    decide (f.added.newState.keySchedule = f.joined.keySchedule) &&
    decide (f.added.newState.confirmationTag = f.joined.confirmationTag) &&
    decide (f.added.newState.groupActiveState = .active) &&
    decide (f.added.newState.privatePath.leafIndex = 0) &&
    decide (f.joined.privatePath.leafIndex = 1) && decide (f.pendingRefs = []) &&
    decide (@Eq (Option Bytes) ((leafAt f.joined.ratchetTree 1).map LeafNode.signaturePublicKey)
      (some f.joined.signaturePrivateKey)) &&
    decide (addedLeafNodes f.applied'.additionalResult = []) && !f.applied'.selfRemoved &&
    f.path.updatePath.isSome && f.path.updatePath.all fun update =>
      decide (newKeys update).Nodup && (newKeys update).all fun key => !keyInTree f.applied.tree key

/-- The run as it is asked of a commit that is followed. -/
structure Following.Runs (f : Following) (publicMessage : Bool) : Prop where
  begins : Begins plainSuite f.group
  grown : OrderlyRun plainSuite f.group f.added.newState
  shares : SharesEpoch f.joined f.added.newState
  other : f.added.newState.privatePath.leafIndex ≠ f.joined.privatePath.leafIndex
  active : f.added.newState.groupActiveState = .active
  signer : ∃ leaf, leafAt f.joined.ratchetTree f.joined.privatePath.leafIndex = some leaf ∧
    leaf.signaturePublicKey = f.joined.signaturePrivateKey
  created : createCommit plainSuite f.joined emptyPskIndex (refreshOptions publicMessage)
    (plainCoins [4]) 0 = .ok f.result
  accepted : ∀ p : CommitParts plainSuite,
    p.Bundles f.joined (refreshOptions publicMessage) 0 f.result →
    p.Creates f.joined emptyPskIndex (refreshOptions publicMessage) (plainCoins [4]) 0 f.result →
      p.path.updatePath.isSome ∧ p.proposals = [] ∧
      (∀ update, p.path.updatePath = some update → FreshKeys p.applied.tree update) ∧
      p.Accepted f.joined.privatePath.leafIndex f.added.newState emptyPskIndex (fun _ => .accept) 0
        f.applied'

theorem following_runs {publicMessage : Bool} (heval : (following publicMessage).map (fun f =>
      decide (f.1.leafNode.leaf.hpkePublicKey = [1]) && f.2.expected) = .ok true) :
    ∃ f : Following, f.Runs publicMessage := by
  obtain ⟨⟨first, f⟩, hrun, hexpected⟩ := map_eq_ok.mp heval
  simp only [Following.expected, Bool.and_eq_true, decide_eq_true_eq, Bool.not_eq_true']
    at hexpected
  obtain ⟨hkey, ⟨⟨⟨⟨⟨⟨⟨⟨⟨⟨⟨hcontext, htree⟩, hschedule⟩, htag⟩, hactive⟩, hown⟩, hjoined⟩,
    hpending⟩, hsigner⟩, hadded⟩, hstays⟩, hsome⟩, hfresh⟩ := hexpected
  obtain ⟨_, -, hrun⟩ := bind_eq_ok.mp hrun
  obtain ⟨second, -, hrun⟩ := bind_eq_ok.mp hrun
  obtain ⟨group, hgroup, hrun⟩ := bind_eq_ok.mp hrun
  obtain ⟨added, hgrown, hrun⟩ := bind_eq_ok.mp hrun
  cases hsent : added.welcome with
  | none =>
    rw [hsent] at hrun
    cases hrun
  | some welcome =>
    rw [hsent] at hrun
    obtain ⟨joined, -, hrun⟩ := bind_eq_ok.mp hrun
    obtain ⟨pendingRefs, hrefs, hrun⟩ := bind_eq_ok.mp hrun
    obtain ⟨applied, happlied, hrun⟩ := bind_eq_ok.mp hrun
    obtain ⟨path, hpath, hrun⟩ := bind_eq_ok.mp hrun
    obtain ⟨result, hcommit, hrun⟩ := bind_eq_ok.mp hrun
    obtain ⟨applied', happlied', hrun⟩ := bind_eq_ok.mp hrun
    obtain ⟨_, hvalid, hrun⟩ := bind_eq_ok.mp hrun
    obtain ⟨rfl, rfl⟩ := Prod.mk.inj (Except.ok.inj hrun)
    dsimp only at hkey hcontext htree hschedule htag hactive hown hjoined hpending hsigner hadded
    dsimp only at hstays hsome hfresh
    have hop : Operation.run group
        (.createCommit emptyPskIndex (welcomingOptions second) (plainCoins []) 0) =
          .ok added.newState := map_eq_ok.mpr ⟨added, hgrown, rfl⟩
    refine ⟨⟨group, added, joined, pendingRefs, applied, path, result, applied'⟩, {
      begins := .created hgroup (hkey ▸ plainSuite_privateKeyOf _)
      grown := .single ⟨_, hop, trivial⟩
      shares := ⟨hcontext, htree, hschedule, htag⟩
      other := by rw [hown, hjoined]; decide
      active := hactive
      signer := by
        dsimp only
        rw [hjoined]
        exact Option.map_eq_some_iff.mp hsigner
      created := hcommit
      accepted := fun p hbundles hcreates => ?_ }⟩
    obtain ⟨refs, hrefs', hproposals⟩ := hbundles.proposals
    obtain rfl := Except.ok.inj (hrefs.symm.trans hrefs')
    have hsame : p.applied = applied := by
      have h := hcreates.applied
      rw [hproposals] at h
      exact Except.ok.inj (h.symm.trans happlied)
    have hpatch : p.patch = none := (Except.ok.inj hbundles.patch).symm
    have hsamePath : p.path = path := by
      have h := hcreates.path
      rw [hsame, hpatch] at h
      exact Except.ok.inj (h.symm.trans hpath)
    refine ⟨hsamePath ▸ hsome, by rw [hproposals, hpending]; rfl, fun update hupdate => ?_,
      ?_, ?_, hstays, by simp [hadded], rfl⟩
    · rw [hsamePath] at hupdate
      rw [hupdate, Option.all_some, Bool.and_eq_true, decide_eq_true_eq, List.all_eq_true] at hfresh
      refine ⟨hfresh.1, fun key hk hmem => ?_⟩
      have hnot := hfresh.2 key hk
      rw [← hsame, keyInTree_iff.mpr hmem] at hnot
      cases hnot
    · rw [hproposals, hsamePath]
      exact happlied'
    · rw [hsamePath]
      exact hvalid

/-- The first member follows. -/
theorem creator_follows_commit : ∃ (state follower later : ClientState plainSuite.signature)
    (result : CreateCommitResult plainSuite.signature) (p : CommitParts plainSuite)
    (applied : ApplyProposalsResult),
    createCommit plainSuite state emptyPskIndex (refreshOptions false) (plainCoins [4]) 0 =
      .ok result ∧
    p.path.updatePath.isSome ∧
    processCommit plainSuite follower (p.content (refreshOptions false) result) p.commit
      (commitWireformat false) emptyPskIndex (fun _ => .accept) 0 = .ok {
        newState := later
        actionTaken := .accept
        committer := some (authenticatedCommitter (.member state.privatePath.leafIndex)
          applied.additionalResult) } ∧
    SharesEpoch result.newState later ∧
    HoldsKeys plainSuite.hpke later.ratchetTree follower.privatePath.leafIndex
      later.privatePath.privateKeys := by
  have hrun : ∃ f : Following, f.Runs false := following_runs (by decide +kernel)
  obtain ⟨f, hf⟩ := hrun
  obtain ⟨p, hbundles, hcreates, -, hfollows⟩ := created_commit_followed plainSuite_fitting
    hf.begins hf.grown hf.shares hf.other hf.created
  obtain ⟨hsome, hempty, hfresh, haccepted⟩ := hf.accepted p hbundles hcreates
  obtain ⟨later, hprocessed, hshares, hkeys⟩ := hfollows emptyPskIndex (fun _ => .accept) 0
    f.applied' (fun _ _ h => h) (by rw [hempty]; rfl) hfresh haccepted
  exact ⟨f.joined, f.added.newState, later, f.result, p, f.applied', hf.created, hsome, hprocessed,
    hshares, hkeys⟩

/-- The first member reads the commit that is sent in the open, and follows. -/
theorem creator_reads_commit : ∃ (state follower later : ClientState plainSuite.signature)
    (result : CreateCommitResult plainSuite.signature) (pm : PublicMessage)
    (committer : AuthenticatedSender),
    createCommit plainSuite state emptyPskIndex (refreshOptions true) (plainCoins [4]) 0 =
      .ok result ∧
    result.commit = { version := .mls10, content := .mls_public_message pm } ∧
    processMessage plainSuite (.mls_public_message pm) follower emptyPskIndex (fun _ => .accept) 0 =
      .ok (.newState later .accept (some committer)) ∧
    SharesEpoch result.newState later ∧
    HoldsKeys plainSuite.hpke later.ratchetTree follower.privatePath.leafIndex
      later.privatePath.privateKeys := by
  have hrun : ∃ f : Following, f.Runs true := following_runs (by decide +kernel)
  obtain ⟨f, hf⟩ := hrun
  obtain ⟨leaf, hleaf, hkey⟩ := hf.signer
  obtain ⟨p, pm, hbundles, hcreates, hsent, hdelivered⟩ := public_commit_delivered
    plainSuite_fitting hf.begins hf.grown hf.shares hf.other hf.active hleaf
    (hkey ▸ plainSuite_matches _) rfl hf.created
  obtain ⟨-, hempty, hfresh, haccepted⟩ := hf.accepted p hbundles hcreates
  obtain ⟨later, hprocessed, hshares, hkeys⟩ := hdelivered emptyPskIndex (fun _ => .accept) 0
    f.applied' (fun _ _ h => h) (by rw [hempty]; rfl) hfresh haccepted
  exact ⟨f.joined, f.added.newState, later, f.result, pm, _, hf.created, hsent, hprocessed, hshares,
    hkeys⟩

end WebcryptoMls
