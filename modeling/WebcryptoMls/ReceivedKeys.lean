import WebcryptoMls.HeldKeys
import WebcryptoMls.Resolutions

/-!
# Received keys

A path brings every other member the secret of the node where its own path meets the
committer's, and with it the keys from there up. A member that is reached by a path holds a key
below that node, so one whose leaf was removed and its path blanked is reached by none.
-/
namespace WebcryptoMls
open InOrder (index size Below)
open Records

/-! ## The secrets that are derived -/

section
variable {cs : CiphersuiteImpl} {t t' : RatchetTree} {d i l m : ℕ} {n : ℤ}

theorem secretsAbove_get {kdf : Kdf} {fdp : List PathNode} {acc along : PathSecretsAlongPath}
    (h : secretsAbove kdf fdp acc = .ok along) :
    along.pathSecrets.get n ≠ none ↔
      n ∈ fdp.map PathNode.nodeIndex ∨ acc.pathSecrets.get n ≠ none := by
  induction fdp generalizing acc with
  | nil =>
    obtain rfl := Except.ok.inj h
    simp
  | cons node fdp ih =>
    obtain ⟨lastSecret, -, h⟩ := bind_eq_ok.mp h
    rw [ih h, Record.get_set, List.map_cons, List.mem_cons]
    split_ifs with heq
    · simp [heq]
    · simp [heq]

/-- From the secret of one node those of all nodes above it are derived, and no others. -/
theorem pathSecretsAlongFilteredPath_get {kdf : Kdf} {secret : Bytes} {along : PathSecretsAlongPath}
    (hlen : t.length = size d) (hd : d ≤ 30) (hi : i < 2 ^ d) (hm : m ∈ filteredLevels t d i)
    (h : pathSecretsAlongFilteredPath t i (pathNode i m) secret kdf = .ok along) :
    along.pathSecrets.get n ≠ none ↔ ∃ m' ∈ filteredLevels t d i, m ≤ m' ∧ n = pathNode i m' := by
  obtain ⟨lower, upper, hsplit⟩ := List.append_of_mem hm
  obtain ⟨-, hupper, hcross⟩ := List.pairwise_append.mp (hsplit ▸ filteredLevels_sorted t d i)
  have hlower : ∀ m' ∈ lower, m' < m := fun m' hm' => hcross m' hm' m (List.mem_cons_self ..)
  have habove : ∀ m' ∈ upper, m < m' := (List.pairwise_cons.mp hupper).1
  set f : ℕ → PathNode := fun m' => { nodeIndex := coord (m' + 1) (i / 2 ^ (m' + 1))
                                      resolution := resolutionAt t m' (sib (i / 2 ^ m')) } with hf
  have hfind : ((lower ++ m :: upper).map f).findIdx? (fun entry => entry.nodeIndex = pathNode i m) =
      some lower.length := by
    rw [List.map_append, List.map_cons, findIdx?_append_cons, List.length_map]
    · rw [List.forall_mem_map]
      intro m' hm'
      rw [decide_eq_false_iff_not]
      exact fun heq => (hlower m' hm').ne (pathNode_inj heq)
    · exact decide_eq_true rfl
  have hdrop : ((lower ++ m :: upper).map f).drop (lower.length + 1) = upper.map f := by
    rw [← List.map_drop, List.drop_append, List.drop_of_length_le (by omega), Nat.add_sub_cancel_left]
    rfl
  rw [pathSecretsAlongFilteredPath, filteredDirectPathAndCopathResolution_coord hlen hd hi, ok_bind,
    hsplit, hfind] at h
  dsimp only at h
  rw [hdrop] at h
  rw [secretsAbove_get h, Record.get_set, Record.get_empty, List.map_map, hsplit]
  constructor
  · rintro (hmem | hne)
    · obtain ⟨m', hm', rfl⟩ := List.mem_map.mp hmem
      exact ⟨m', List.mem_append_right _ (List.mem_cons_of_mem _ hm'), (habove m' hm').le, rfl⟩
    · split_ifs at hne with heq
      · exact ⟨m, List.mem_append_right _ (List.mem_cons_self ..), le_rfl, heq⟩
      · exact absurd rfl hne
  · rintro ⟨m', hm', hle, rfl⟩
    rcases List.mem_append.mp hm' with hm' | hm'
    · exact absurd (hlower m' hm') (not_lt.mpr hle)
    · rcases List.mem_cons.mp hm' with rfl | hm'
      · exact .inr (by simp)
      · exact .inl (List.mem_map.mpr ⟨m', hm', rfl⟩)

/-! ## Who is reached -/

theorem firstAncestor_mem {entries : List (PathNode × ℕ)} {entry : PathNode × ℕ}
    (h : firstAncestor t l entries = .ok entry) : entry ∈ entries := by
  induction entries with
  | nil => cases h
  | cons first entries ih =>
    obtain ⟨found, -, h⟩ := bind_eq_ok.mp h
    split_ifs at h
    · rw [← Except.ok.inj h]
      exact List.mem_cons_self ..
    · exact List.mem_cons_of_mem _ (ih h)

theorem decryptPathSecret_held {keys : Record ℤ Bytes} {gc : GroupContext} {secret : Bytes}
    {recipients : List (ℤ × HPKECiphertext)}
    (h : decryptPathSecret keys gc cs recipients = .ok secret) :
    ∃ n ∈ recipients.map Prod.fst, keys.get n ≠ none := by
  induction recipients with
  | nil => cases h
  | cons recipient recipients ih =>
    obtain ⟨n, ct⟩ := recipient
    rw [decryptPathSecret] at h
    cases hget : keys.get n with
    | none =>
      rw [hget] at h
      obtain ⟨n', hn', hne⟩ := ih h
      exact ⟨n', List.mem_cons_of_mem _ hn', hne⟩
    | some privateKey => exact ⟨n, List.mem_cons_self .., by simp [hget]⟩

/-- A member that is reached holds a key that it is sent the secret under, below the node where
its path meets the committer's. -/
theorem applyUpdatePathSecret_eq_ok {path : PrivateKeyPath} {gc : GroupContext} {update : UpdatePath}
    {exclude : List ℤ} {received : ReceivedPathSecret} (hlen : t.length = size d) (hd : d ≤ 31)
    (ht : Represented t) (hpath : OnPath path.leafIndex path.privateKeys)
    (h : applyUpdatePathSecret t path i gc update exclude cs = .ok received) :
    d ≤ 30 ∧ i < 2 ^ d ∧ ∃ m ∈ filteredLevels t d i, path.leafIndex / 2 ^ m = sib (i / 2 ^ m) ∧
      received.nodeIndex = pathNode i m ∧ ∃ k, coord k (path.leafIndex / 2 ^ k) ∈
        filterNewLeaves (resolutionAt t m (path.leafIndex / 2 ^ m)) exclude := by
  obtain ⟨ancestor, hancestor, h⟩ := bind_eq_ok.mp h
  obtain ⟨fdp, hfdp, hancestor⟩ := bind_eq_ok.mp hancestor
  obtain ⟨hd30, hi⟩ := filteredDirectPathAndCopathResolution_eq_ok hlen hd hfdp
  rw [filteredDirectPathAndCopathResolution_coord hlen hd30 hi, Except.ok.injEq] at hfdp
  subst hfdp
  obtain ⟨⟨node, position⟩, hfirst, hancestor⟩ := bind_eq_ok.mp hancestor
  obtain rfl := Except.ok.inj hancestor
  obtain ⟨m, hm, rfl⟩ := List.mem_map.mp (List.of_mem_zip
    (List.zipIdx_eq_zip_range' .. ▸ firstAncestor_mem hfirst)).1
  split at h
  · cases h
  · dsimp only at h
    split_ifs at h with hcount
    obtain ⟨pathSecret, hdecrypt, h⟩ := bind_eq_ok.mp h
    obtain rfl := Except.ok.inj h
    obtain ⟨n, hn, hheld⟩ := decryptPathSecret_held hdecrypt
    obtain ⟨recipient, hmem, rfl⟩ := List.mem_map.mp hn
    have hrecipient := (List.of_mem_zip hmem).1
    obtain ⟨privateKey, hget⟩ := Option.ne_none_iff_exists'.mp hheld
    obtain ⟨k, hk⟩ := hpath _ privateKey hget
    rw [hk] at hrecipient
    have hbelow : path.leafIndex / 2 ^ m = sib (i / 2 ^ m) := by
      obtain ⟨k', j', heq, hb⟩ := ht.resolution_below (List.mem_filter.mp hrecipient).1
      obtain ⟨rfl, rfl⟩ := coord_inj.mp heq
      exact (InOrder.div_two_pow_sub hb.1).symm.trans hb.2
    exact ⟨hd30, hi, m, hm, hbelow, rfl, k, by rw [hbelow]; exact hrecipient⟩

/-! ## The keys that are received -/

theorem toPrivateKey_eq_ok {secret privateKey : Bytes} {node : Node} (hpairs : DerivesKeyPairs cs.hpke)
    (hnode : nodeAt t n = some node)
    (h : toPrivateKey cs (some t) (n, secret) = .ok (n, privateKey)) :
    PrivateKeyOf cs.hpke privateKey (getHpkePublicKey node) := by
  obtain ⟨nodeSecret, -, h⟩ := bind_eq_ok.mp h
  obtain ⟨⟨private_, publicKey⟩, hpair, h⟩ := bind_eq_ok.mp h
  simp only [Option.bind_some, hnode] at h
  obtain ⟨derived, hderived, h⟩ := bind_eq_ok.mp h
  split_ifs at h with hdiffers
  obtain ⟨exported, hexported, h⟩ := bind_eq_ok.mp h
  obtain ⟨-, rfl⟩ := Prod.mk.inj (Except.ok.inj h)
  have hequal : derived = getHpkePublicKey node := by
    simpa [constantTimeEqual_iff] using hdiffers
  rw [← hequal]
  exact hpairs _ _ _ _ _ hpair hexported hderived

/-- There is a key for every secret. -/
theorem toPrivateKeyPath_ne_none {pathSecrets : PathSecrets} {verifyAgainstTree : Option RatchetTree}
    {path : PrivateKeyPath} (h : toPrivateKeyPath pathSecrets l cs verifyAgainstTree = .ok path)
    (hn : pathSecrets.get n ≠ none) : path.privateKeys.get n ≠ none := by
  obtain ⟨asArray, hmap, -⟩ := bind_eq_ok.mp h
  obtain ⟨secret, hsecret⟩ := Option.ne_none_iff_exists'.mp hn
  obtain ⟨⟨n', privateKey⟩, -, hkey⟩ := exists_mem_of_mapM hmap _ (Record.get_eq_some.mp hsecret)
  obtain rfl : n' = n := toPrivateKey_fst hkey
  rw [((toPrivateKeyPath_get h).2 n' privateKey).mpr ⟨secret, hsecret, hkey⟩]
  exact Option.some_ne_none _

/-- With the keys it derives from a path, a member has those of the tree the path is written to. -/
theorem updatePrivateKeyPath_keeps {h : Hash} {c : LeafNodeCommit} {path : PrivateKeyPath}
    {gc : GroupContext} {update : UpdatePath} {exclude : List ℤ} {updated : UpdatedPrivateKeys}
    (ht : TreeInvariant t) (hlen : t.length = size d) (hd : d ≤ 31) (hw : PathWritten h t t' d i c)
    (hpairs : DerivesKeyPairs cs.hpke)
    (hkeys : KeepsKeys cs.hpke t path.leafIndex path.privateKeys)
    (hupdate : updatePrivateKeyPath cs t' path i gc update exclude = .ok updated) :
    KeepsKeys cs.hpke t' path.leafIndex
      (path.privateKeys.setAll updated.pathKeys.privateKeys.entries) := by
  obtain ⟨received, hreceived, hupdate⟩ := bind_eq_ok.mp hupdate
  obtain ⟨along, halong, hupdate⟩ := bind_eq_ok.mp hupdate
  obtain ⟨commitSecret, -, hupdate⟩ := bind_eq_ok.mp hupdate
  obtain ⟨pathKeys, hpathKeys, hupdate⟩ := bind_eq_ok.mp hupdate
  obtain rfl := Except.ok.inj hupdate
  obtain ⟨hd30, hi, m, hm, hbranch, hindex, -⟩ := applyUpdatePathSecret_eq_ok hw.length hd
    (ht.pathWritten hlen hw).represented hkeys.place hreceived
  rw [hindex] at halong
  have hsecrets {n : ℤ} := pathSecretsAlongFilteredPath_get (n := n) hw.length hd30 hi hm halong
  rw [hw.filteredLevels_eq] at hsecrets
  have hget := (toPrivateKeyPath_get hpathKeys).2
  refine KeepsKeys.merged hkeys.place (fun n privateKey hn => ?_) fun k node hnode hnone => ?_
  · obtain ⟨secret, hsecret, hkey⟩ := (hget n privateKey).mp hn
    obtain ⟨m', hm', hle, rfl⟩ := hsecrets.mp (by rw [hsecret]; exact Option.some_ne_none _)
    obtain ⟨p, hp, hunmerged, -⟩ := hw.node m' hm'
    refine ⟨m' + 1, .parent p, ?_, ?_, ?_, toPrivateKey_eq_ok hpairs ?_ hkey⟩
    · rw [pathNode, (branch_iff hbranch).mpr hle]
    · rw [(branch_iff hbranch).mpr hle, hp]
    · rw [Node.unmergedLeaves, hunmerged]
      exact List.not_mem_nil
    · rw [pathNode, nodeAt_coord, hp]
  · have hoff : i / 2 ^ k ≠ path.leafIndex / 2 ^ k := by
      intro heq
      cases k with
      | zero =>
        rw [pow_zero, Nat.div_one, Nat.div_one] at heq
        rw [heq] at hbranch
        exact sib_ne _ hbranch.symm
      | succ k =>
        -- the nodes they have in common are all written
        rw [← heq] at hnode hnone
        have hle := (branch_iff hbranch).mp heq.symm
        exact toPrivateKeyPath_ne_none hpathKeys
          (hsecrets.mpr ⟨k, (hw.on ht.isCovered hlen hnode).1, hle, rfl⟩) hnone
    rw [hw.off hoff] at hnode
    exact hkeys.held k node hnode

end

/-! ## Following a commit -/

/-- What a commit's path makes of the tree and of a member's keys. -/
inductive PathFollowed (cs : CiphersuiteImpl) (tree : RatchetTree) (privatePath : PrivateKeyPath)
    (exclude : List ℤ) (update : TreeUpdate) : Option UpdatePath → Prop
  | noPath (tree_eq : update.tree = tree) (pathKeys : update.pathKeys = none) :
      PathFollowed cs tree privatePath exclude update none
  | written {path : UpdatePath} {before : RatchetTree} {d i : ℕ} {gc : GroupContext}
      {updated : UpdatedPrivateKeys} (reachable : Reachable before)
      (before_eq : before = tree ∨ ∃ leaf, Added tree before i leaf) (length : before.length = size d)
      (depth : d ≤ 31) (written : PathWritten cs.hash before update.tree d i path.leafNode)
      (updated_eq : updatePrivateKeyPath cs update.tree privatePath i gc path exclude = .ok updated)
      (pathKeys : update.pathKeys = some updated.pathKeys) (tree_reachable : Reachable update.tree) :
      PathFollowed cs tree privatePath exclude update (some path)

section
variable {cs : CiphersuiteImpl} {tree : RatchetTree} {privatePath : PrivateKeyPath}
  {exclude : List ℤ} {update : TreeUpdate} {path : Option UpdatePath} {sender : Sender}
  {groupContext : GroupContext}

theorem applyTreeUpdate_followed (ht : Reachable tree)
    (h : applyTreeUpdate cs path sender tree privatePath groupContext exclude = .ok update) :
    PathFollowed cs tree privatePath exclude update path := by
  cases path with
  | none =>
    obtain ⟨treeHash, -, h⟩ := bind_eq_ok.mp h
    obtain rfl := Except.ok.inj h
    exact .noPath rfl rfl
  | some path =>
    have hwritten {before updatedTree : RatchetTree} {i : ℕ} {isExternal : Bool}
        (hbefore : Reachable before) (heq : before = tree ∨ ∃ leaf, Added tree before i leaf)
        (happly : applyUpdatePath before i path cs.hash isExternal = .ok updatedTree)
        (h : applyUpdatedTree cs updatedTree privatePath i groupContext path exclude = .ok update) :
        PathFollowed cs tree privatePath exclude update (some path) := by
      obtain ⟨treeHash, -, h⟩ := bind_eq_ok.mp h
      obtain ⟨updated, hupdated, h⟩ := bind_eq_ok.mp h
      obtain rfl := Except.ok.inj h
      obtain ⟨-, d, hg⟩ := hbefore.invariant
      exact .written hbefore heq hg.length hg.depth (applyUpdatePath_spec hg.length hg.depth happly).1
        hupdated rfl (hbefore.applyUpdatePath happly)
    unfold applyTreeUpdate at h
    dsimp only at h
    split at h
    · obtain ⟨updatedTree, happly, h⟩ := bind_eq_ok.mp h
      exact hwritten ht (.inl rfl) happly h
    · obtain ⟨⟨treeWithLeafNode, leafNodeIndex⟩, hadd, h⟩ := bind_eq_ok.mp h
      obtain ⟨senderLeafIndex, hsender, h⟩ := bind_eq_ok.mp h
      obtain ⟨updatedTree, happly, h⟩ := bind_eq_ok.mp h
      obtain ⟨-, d, hg⟩ := ht.invariant
      obtain ⟨i, -, hplace, -, hadded, -⟩ := addLeafNode_added hg hadd
      rw [hplace, nodeToLeafIndex_coord] at hsender
      obtain rfl := Except.ok.inj hsender
      exact hwritten (ht.addLeafNode hadd) (.inr ⟨_, hadded⟩) happly h

/-- A member that follows a commit holds the keys of the next epoch's tree. -/
theorem PathFollowed.holdsKeys (ht : Reachable tree) (hpairs : DerivesKeyPairs cs.hpke)
    (hl : slot tree 0 privatePath.leafIndex ≠ none)
    (hkeys : KeepsKeys cs.hpke tree privatePath.leafIndex privatePath.privateKeys)
    (h : PathFollowed cs tree privatePath exclude update path) :
    Reachable update.tree ∧ slot update.tree 0 privatePath.leafIndex ≠ none ∧
      HoldsKeys cs.hpke update.tree privatePath.leafIndex
        (receiverPrivatePath privatePath update.pathKeys update.tree).privateKeys := by
  cases h with
  | noPath tree_eq pathKeys =>
    rw [tree_eq, pathKeys]
    exact ⟨ht, hl, hkeys.pruned⟩
  | @written path before d i gc updated reachable before_eq length depth written updated_eq pathKeys
      tree_reachable =>
    obtain ⟨hleaf, hbefore⟩ : slot before 0 privatePath.leafIndex ≠ none ∧
        KeepsKeys cs.hpke before privatePath.leafIndex privatePath.privateKeys := by
      rcases before_eq with rfl | ⟨leaf, hadded⟩
      · exact ⟨hl, hkeys⟩
      · refine ⟨hadded.leaf_ne_none hl, hkeys.kept (hadded.pathKept ?_)⟩
        rintro rfl
        exact hl hadded.blank
    rw [pathKeys]
    exact ⟨tree_reachable, written.leaf_ne_none hleaf, (updatePrivateKeyPath_keeps reachable.invariant.1
      length depth written hpairs hbefore updated_eq).pruned⟩

/-- A path reaches nobody whose own path is blank, save one whose leaf is not left out. -/
theorem PathFollowed.not_removed {path : UpdatePath}
    (hplace : OnPath privatePath.leafIndex privatePath.privateKeys)
    (hblank : ∀ k, slot tree (k + 1) (privatePath.leafIndex / 2 ^ (k + 1)) = none)
    (hexclude : slot tree 0 privatePath.leafIndex ≠ none →
      leafToNodeIndex privatePath.leafIndex ∈ exclude)
    (h : PathFollowed cs tree privatePath exclude update (some path)) : False := by
  cases h with
  | @written path before d i gc updated reachable before_eq length depth written updated_eq pathKeys
      tree_reachable =>
    obtain ⟨hinv, -⟩ := reachable.invariant
    obtain ⟨received, hreceived, -⟩ := bind_eq_ok.mp updated_eq
    obtain ⟨-, -, m, -, hbranch, -, k, hk⟩ := applyUpdatePathSecret_eq_ok written.length depth
      tree_reachable.invariant.1.represented hplace hreceived
    rw [filterNewLeaves, List.mem_filter, hbranch, written.resolutionAt_copath] at hk
    have hnode := hinv.represented.resolution_ne_none hk.1
    rw [nodeAt_coord] at hnode
    cases k with
    | zero =>
      rw [pow_zero, Nat.div_one] at hnode hk
      refine absurd hk.2 ?_
      suffices hleft : coord 0 privatePath.leafIndex ∈ exclude by simpa using hleft
      rw [← leafToNodeIndex_eq]
      refine hexclude ?_
      rcases before_eq with rfl | ⟨leaf, hadded⟩
      · exact hnode
      · rw [hadded.leaf, if_neg] at hnode
        · exact hnode
        · -- the joiner is not sent its own path
          intro heq
          rw [heq] at hbranch
          exact sib_ne _ hbranch.symm
    | succ k =>
      rcases before_eq with rfl | ⟨leaf, hadded⟩
      · exact hnode (hblank k)
      · obtain ⟨node, hnode⟩ := Option.ne_none_iff_exists'.mp hnode
        obtain ⟨node₀, hnode₀⟩ := hadded.parent_ne_none hnode
        rw [hblank k] at hnode₀
        cases hnode₀

end

/-- The member's leaf is in its tree, and it holds the keys of its own path. -/
structure OwnsPath {sig : Signature} (hpke : Hpke) (state : ClientState sig) : Prop where
  tree : Reachable state.ratchetTree
  leaf : slot state.ratchetTree 0 state.privatePath.leafIndex ≠ none
  keys : HoldsKeys hpke state.ratchetTree state.privatePath.leafIndex state.privatePath.privateKeys

section
variable {cs : CiphersuiteImpl} {state : ClientState cs.signature} {proposals : List ProposalOrRef}
  {allProposals : List ProposalWithSender} {committerLeafIndex : Option ℕ} {pskSearch : PskIndex}
  {sentByClient : Bool} {newMemberLeafNode : Option LeafNode} {senderType : SenderTypeName}
  {currentTime : ℤ} {result : ApplyProposalsResult}

theorem mem_remove_of_proposedChanges {grouped : Proposals} {i : ℕ}
    (h : .remove i ∈ proposedChanges grouped) : ∃ r ∈ grouped.remove, r.proposal = i := by
  simpa [proposedChanges] using h

/-- A commit that removes a leaf must have a path. -/
theorem applyProposals_needsUpdatePath {i : ℕ}
    (hall : resolveProposals state committerLeafIndex senderType proposals = .ok allProposals)
    (h : applyProposals cs state proposals committerLeafIndex pskSearch sentByClient newMemberLeafNode
      senderType currentTime = .ok result)
    (hremove : .remove i ∈ proposedChanges (groupProposals allProposals)) :
    result.needsUpdatePath = true := by
  obtain ⟨_, hall', -, h⟩ := applyProposals_eq_ok h
  obtain rfl := Except.ok.inj (hall.symm.trans hall')
  simp only [applyGroupedProposals] at h
  split_ifs at h with hexternal
  · obtain ⟨_, -, h⟩ := bind_eq_ok.mp h
    obtain ⟨_, -, h⟩ := bind_eq_ok.mp h
    obtain ⟨_, -, h⟩ := bind_eq_ok.mp h
    obtain ⟨_, -, h⟩ := bind_eq_ok.mp h
    obtain ⟨priorCredential, -, h⟩ := bind_eq_ok.mp h
    obtain ⟨treeAfterRemove, -, h⟩ := bind_eq_ok.mp h
    obtain ⟨psk, -, h⟩ := bind_eq_ok.mp h
    dsimp only at h
    split at h
    · cases h
    · obtain ⟨externalKeyPair, -, h⟩ := bind_eq_ok.mp h
      obtain ⟨exported, -, h⟩ := bind_eq_ok.mp h
      obtain ⟨externalInitSecret, -, h⟩ := bind_eq_ok.mp h
      obtain ⟨newMemberLeafIndex, -, h⟩ := bind_eq_ok.mp h
      rw [← Except.ok.inj h]
  · split at h
    · rename_i reinit rest hreinit
      rw [(applyReinit_changes hreinit h).1] at hremove
      cases hremove
    · obtain ⟨tree, addedLeafNodes, _, _, -, -, rfl⟩ := applyMemberProposals_eq_ok h
      obtain ⟨r, hr, -⟩ := mem_remove_of_proposedChanges hremove
      have hlength := List.length_pos_of_mem hr
      simp [hlength]

theorem mem_commitExcludeNodes {i : ℕ}
    (h : i ∈ (addedLeafNodes result.additionalResult).map Prod.fst) :
    leafToNodeIndex i ∈ commitExcludeNodes result := by
  obtain ⟨a, ha, rfl⟩ := List.mem_map.mp h
  cases hdata : result.additionalResult with
  | memberCommit added groupContext =>
    rw [hdata] at ha
    simp only [commitExcludeNodes, hdata]
    exact List.mem_map.mpr ⟨a, ha, rfl⟩
  | _ =>
    rw [hdata] at ha
    cases ha

variable {f : FollowedCommit cs}

theorem ownPrivatePath_leafIndex (state : ClientState cs.signature) (proposals : List ProposalOrRef) :
    (ownPrivatePath state proposals).leafIndex = state.privatePath.leafIndex := by
  unfold ownPrivatePath
  split <;> rfl

theorem ownPrivatePath_onPath (h : OnPath state.privatePath.leafIndex state.privatePath.privateKeys)
    (proposals : List ProposalOrRef) :
    OnPath state.privatePath.leafIndex (ownPrivatePath state proposals).privateKeys := by
  unfold ownPrivatePath
  split
  · exact h
  · rw [updateLeafKey, leafToNodeIndex_eq]
    exact h.set _

theorem committer_member {sender : Sender} {i : ℕ} (h : getSenderLeafNodeIndex sender = some i) :
    sender.senderType = .member := by
  cases sender with
  | member leafIndex => rfl
  | _ => cases h

/-- A commit that removes a leaf leaves the nodes over it blank, and its place to an Add. -/
theorem applyProposals_removed {l : ℕ} (ht : Reachable state.ratchetTree)
    (hl : slot state.ratchetTree 0 l ≠ none)
    (hall : resolveProposals state committerLeafIndex senderType proposals = .ok allProposals)
    (h : applyProposals cs state proposals committerLeafIndex pskSearch sentByClient newMemberLeafNode
      senderType currentTime = .ok result)
    (hremove : .remove l ∈ proposedChanges (groupProposals allProposals)) :
    (∀ k, slot result.tree (k + 1) (l / 2 ^ (k + 1)) = none) ∧
      (slot result.tree 0 l ≠ none → l ∈ (addedLeafNodes result.additionalResult).map Prod.fst) := by
  cases applyProposals_leafAfter ht hl hall h with
  | kept untouched => exact absurd (List.mem_map_of_mem hremove) untouched
  | updated u hu hsender =>
    have hupdate : .update u.proposal.leaf l ∈ proposedChanges (groupProposals allProposals) :=
      List.mem_append_left _ (List.mem_map.mpr ⟨u, hu, by rw [hsender]; rfl⟩)
    have heq := List.inj_on_of_nodup_map (applyProposals_targets hall h).1 hremove hupdate rfl
    cases heq
  | removed mem path refilled => exact ⟨path, refilled⟩

/-- No one follows a commit that removes it, though an Add of the same commit should refill its
place. -/
theorem FollowedCommit.Follows.not_removed (hstate : OwnsPath cs.hpke state)
    (hall : resolveProposals state (getSenderLeafNodeIndex f.content.content.sender)
      f.content.content.sender.senderType f.commit.proposals = .ok allProposals)
    (h : f.Follows state pskSearch currentTime) :
    .remove state.privatePath.leafIndex ∉ proposedChanges (groupProposals allProposals) := by
  intro hremove
  obtain ⟨path, refilled⟩ := applyProposals_removed hstate.tree hstate.leaf hall h.applied hremove
  have hneeds := h.needsUpdatePath (applyProposals_needsUpdatePath hall h.applied hremove)
  obtain ⟨update, hpath⟩ := Option.ne_none_iff_exists'.mp hneeds
  obtain ⟨start, -, hadded⟩ := applyProposals_leaves hstate.tree hall h.applied
  have hfollowed := applyTreeUpdate_followed hadded.tree (deriveNextEpoch_eq_ok h.next).1
  rw [hpath] at hfollowed
  refine hfollowed.not_removed ?_ ?_ ?_
  · rw [ownPrivatePath_leafIndex]
    exact ownPrivatePath_onPath hstate.keys.keeps.place _
  · rw [ownPrivatePath_leafIndex]
    exact path
  · rw [ownPrivatePath_leafIndex]
    exact fun hne => mem_commitExcludeNodes (refilled hne)

theorem FollowedCommit.Follows.ownsPath (hpairs : DerivesKeyPairs cs.hpke)
    (hstate : OwnsPath cs.hpke state) (hpending : PendingUpdates cs.hpke state)
    (h : f.Follows state pskSearch currentTime) :
    OwnsPath cs.hpke (f.newState state) ∧
      (f.newState state).privatePath.leafIndex = state.privatePath.leafIndex := by
  obtain ⟨allProposals, hall, -⟩ := applyProposals_eq_ok h.applied
  obtain ⟨start, -, hadded⟩ := applyProposals_leaves hstate.tree hall h.applied
  obtain ⟨hleaf, hkeeps⟩ := ownPrivatePath_keeps hstate.tree hstate.leaf hstate.keys hpending hall
    h.applied (fun _ => committer_member) (h.not_removed hstate hall)
  have hindex := ownPrivatePath_leafIndex state f.commit.proposals
  have hfollowed := applyTreeUpdate_followed hadded.tree (deriveNextEpoch_eq_ok h.next).1
  obtain ⟨htree, hslot, hholds⟩ :=
    hfollowed.holdsKeys hadded.tree hpairs (by rw [hindex]; exact hleaf) (by rw [hindex]; exact hkeeps)
  have hnew : (f.newState state).privatePath.leafIndex = (ownPrivatePath state f.commit.proposals).leafIndex := by
    change (receiverPrivatePath _ f.next.update.pathKeys f.next.update.tree).leafIndex = _
    cases f.next.update.pathKeys <;> rfl
  refine ⟨⟨htree, ?_, ?_⟩, hnew.trans hindex⟩
  · rw [hnew]
    exact hslot
  · rw [hnew]
    exact hholds

end

end WebcryptoMls
