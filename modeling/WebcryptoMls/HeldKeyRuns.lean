import WebcryptoMls.EpochRuns
import WebcryptoMls.ReceivedKeys
import WebcryptoMls.WelcomedMembers

/-!
# Held keys over runs

A committer derives the keys of its leaf and of its path from the secrets it draws. From the
creation of the group on, whatever is committed, followed, proposed and read, a member's private
path holds the keys of its place in the tree, those it is to hold and no others.
-/
namespace WebcryptoMls
open InOrder (index size Below)
open Records

/-! ## The keys of a committer -/

/-- The secret yields the key of a node over leaf `i`, of which the leaf is no unmerged one. -/
def YieldsKey (cs : CiphersuiteImpl) (t : RatchetTree) (i : ℕ) (pathSecret : PathSecret) : Prop :=
  ∃ k node keys, pathSecret.nodeIndex = coord k (i / 2 ^ k) ∧ slot t k (i / 2 ^ k) = some node ∧
    i ∉ node.unmergedLeaves ∧ secretKeys cs pathSecret.secret = .ok keys ∧
    getHpkePublicKey node = keys.2

section
variable {cs : CiphersuiteImpl} {t : RatchetTree} {d i : ℕ} {gc : GroupContext}
  {key : cs.signature.SignatureSecretKey} {coins : PathCoins} {exclude : List ℤ}
  {patch : ResolvedLeafNodePatch cs.signature} {created : CreatedPath cs}

/-- The leaf has the key of the secret that is drawn, and where nobody is to be sent a secret this
is the one that is kept. -/
theorem createUpdatePath_leafKeys (hlen : t.length = size d) (hd : d ≤ 31)
    (h : createUpdatePath t i gc cs key coins exclude patch = .ok created) :
    secretKeys cs coins.pathSecret =
        .ok (created.leafPrivateKey, created.updatePath.leafNode.leaf.hpkePublicKey) ∧
      (filteredLevels t d i = [] → created.pathSecrets =
        [{ nodeIndex := coord 0 i, secret := coins.pathSecret, sendTo := [] }]) := by
  unfold createUpdatePath at h
  simp only [leafToNodeIndex_eq, nodeAt_coord] at h
  split at h
  case h_2 => cases h
  case h_1 originalLeafNode horig =>
    obtain ⟨leafNodeSecret, hsecret, h⟩ := bind_eq_ok.mp h
    obtain ⟨⟨leafPrivateKey, leafPublicKey⟩, hpair, h⟩ := bind_eq_ok.mp h
    obtain ⟨fdp, hfdp, h⟩ := bind_eq_ok.mp h
    obtain ⟨⟨t₁, ps⟩, hinit, h⟩ := bind_eq_ok.mp h
    obtain ⟨t₂, -, h⟩ := bind_eq_ok.mp h
    obtain ⟨⟨leafHash, r⟩, -, h⟩ := bind_eq_ok.mp h
    obtain ⟨hpkePublicKey, hpublic, h⟩ := bind_eq_ok.mp h
    obtain ⟨signed, hsigned, h⟩ := bind_eq_ok.mp h
    obtain ⟨root, -, h⟩ := bind_eq_ok.mp h
    obtain ⟨nodes, -, h⟩ := bind_eq_ok.mp h
    obtain rfl := Except.ok.inj h
    obtain ⟨signature, hleaf⟩ := signLeafNodeCommit_eq_ok hsigned
    obtain ⟨hd30, hi⟩ := filteredDirectPathAndCopathResolution_eq_ok hlen hd hfdp
    rw [filteredDirectPathAndCopathResolution_coord hlen hd30 hi, Except.ok.injEq] at hfdp
    subst hfdp
    refine ⟨?_, fun hnil => ?_⟩
    · simp only [secretKeys, hsecret, ok_bind, hpair, hpublic, hleaf]
      rfl
    · rw [hnil] at hinit
      obtain ⟨-, rfl⟩ := Prod.mk.inj (Except.ok.inj hinit)
      simp [leafToNodeIndex_eq]

/-- Secrets of different nodes are all kept. -/
theorem pathToPathSecrets_get {pathSecrets : List PathSecret} {n : ℤ} {secret : Bytes}
    (hdistinct : (pathSecrets.map PathSecret.nodeIndex).Nodup) :
    (pathToPathSecrets pathSecrets).get n = some secret ↔
      ∃ p ∈ pathSecrets, p.nodeIndex = n ∧ p.secret = secret := by
  rw [pathToPathSecrets, Record.get_ofEntries_eq_some (by rwa [List.map_map]), List.mem_map]
  simp only [Prod.mk.injEq]

/-- Every secret a committer keeps yields a key of its path, and there is one for every node of
the path. -/
theorem createUpdatePath_yields (hlen : t.length = size d) (hd : d ≤ 31)
    (h : createUpdatePath t i gc cs key coins exclude patch = .ok created) :
    (created.pathSecrets.map PathSecret.nodeIndex).Nodup ∧
      (∀ p ∈ created.pathSecrets, YieldsKey cs created.tree i p) ∧
      ∀ m ∈ filteredLevels t d i, pathNode i m ∈ created.pathSecrets.map PathSecret.nodeIndex := by
  obtain ⟨hw, -, -⟩ := createUpdatePath_spec hlen hd h
  obtain ⟨hleafKeys, hlone⟩ := createUpdatePath_leafKeys hlen hd h
  obtain ⟨secrets, context, hchain, -, -, hsent⟩ := createUpdatePath_secrets hlen hd h
  have hkeys := createUpdatePath_keys hlen hd hchain h
  have hindices : secrets.map PathSecret.nodeIndex = (filteredLevels t d i).map (pathNode i) := by
    rw [(chainSecrets_nodes hchain).1, senderPath, List.map_map]
    rfl
  by_cases hnil : filteredLevels t d i = []
  · rw [hlone hnil, hnil]
    refine ⟨List.nodup_singleton _, fun p hp => ?_, fun m hm => (List.not_mem_nil hm).elim⟩
    obtain rfl := List.mem_singleton.mp hp
    refine ⟨0, .leaf created.updatePath.leafNode.leaf, _, ?_, ?_, List.not_mem_nil, hleafKeys, rfl⟩
    · rw [pow_zero, Nat.div_one]
    · rw [pow_zero, Nat.div_one, hw.leaf]
  · have hne : secrets ≠ [] := by
      rintro rfl
      exact hnil (List.map_eq_nil_iff.mp hindices.symm)
    rw [hsent hne, hindices]
    refine ⟨?_, fun p hp => ?_, fun m hm => List.mem_map_of_mem hm⟩
    · exact List.Nodup.map (fun _ _ heq => pathNode_inj heq)
        ((filteredLevels_sorted t d i).imp Nat.ne_of_lt)
    · have hnodes : List.Forall₂ (fun m p => p.nodeIndex = pathNode i m ∧
          HoldsSecretKey cs created.tree i m p) (filteredLevels t d i) secrets := by
        rw [← List.forall₂_eq_eq_eq, List.forall₂_map_left_iff, List.forall₂_map_right_iff]
          at hindices
        have hplaces := hindices.flip
        rw [List.forall₂_iff_zip] at hkeys hplaces ⊢
        exact ⟨hkeys.1, fun hzip => ⟨hplaces.2 hzip, hkeys.2 hzip⟩⟩
      obtain ⟨m, hm, hplace, keys, q, hsecret, hq, hpublic⟩ := exists_mem_of_forall₂ hnodes hp
      obtain ⟨q', hq', hunmerged, -⟩ := hw.node m hm
      obtain rfl := Node.parent.inj (Option.some.inj (hq.symm.trans hq'))
      refine ⟨m + 1, _, keys, hplace, hq, ?_, hsecret, hpublic⟩
      rw [Node.unmergedLeaves, hunmerged]
      exact List.not_mem_nil

theorem createUpdatePath_leafKey {exported : Bytes} (hlen : t.length = size d) (hd : d ≤ 31)
    (hpairs : DerivesKeyPairs cs.hpke)
    (h : createUpdatePath t i gc cs key coins exclude patch = .ok created)
    (hexported : cs.hpke.exportPrivateKey created.leafPrivateKey = .ok exported) :
    PrivateKeyOf cs.hpke exported created.updatePath.leafNode.leaf.hpkePublicKey := by
  obtain ⟨hkeys, -⟩ := createUpdatePath_leafKeys hlen hd h
  obtain ⟨nodeSecret, -, hkeys⟩ := bind_eq_ok.mp hkeys
  obtain ⟨⟨leafPrivateKey, leafPublicKey⟩, hpair, hkeys⟩ := bind_eq_ok.mp hkeys
  obtain ⟨derived, hderived, hkeys⟩ := bind_eq_ok.mp hkeys
  obtain ⟨rfl, rfl⟩ := Prod.mk.inj (Except.ok.inj hkeys)
  exact hpairs _ _ _ _ _ hpair hexported hderived

/-- The keys of a path are of places on it, and above the leaf they are all there. -/
theorem createUpdatePath_pathKeys {path : PrivateKeyPath} (ht : Covered t)
    (hlen : t.length = size d) (hd : d ≤ 31) (hpairs : DerivesKeyPairs cs.hpke)
    (h : createUpdatePath t i gc cs key coins exclude patch = .ok created)
    (hpath : toPrivateKeyPath (pathToPathSecrets created.pathSecrets) i cs none = .ok path) :
    (∀ n privateKey, path.privateKeys.get n = some privateKey → ∃ k node, n = coord k (i / 2 ^ k) ∧
      slot created.tree k (i / 2 ^ k) = some node ∧ i ∉ node.unmergedLeaves ∧
      PrivateKeyOf cs.hpke privateKey (getHpkePublicKey node)) ∧
    ∀ k node, slot created.tree (k + 1) (i / 2 ^ (k + 1)) = some node →
      path.privateKeys.get (coord (k + 1) (i / 2 ^ (k + 1))) ≠ none := by
  obtain ⟨hw, -, -⟩ := createUpdatePath_spec hlen hd h
  obtain ⟨hdistinct, hyields, hall⟩ := createUpdatePath_yields hlen hd h
  refine ⟨fun n privateKey hn => ?_, fun k node hnode => ?_⟩
  · obtain ⟨secret, hsecret, hkey⟩ := ((toPrivateKeyPath_get hpath).2 n privateKey).mp hn
    obtain ⟨p, hp, rfl, rfl⟩ := (pathToPathSecrets_get hdistinct).mp hsecret
    obtain ⟨k, node, keys, hk, hnode, hnot, hkeys, hpublic⟩ := hyields p hp
    refine ⟨k, node, hk, hnode, hnot, ?_⟩
    rw [hpublic]
    exact toPrivateKey_privateKeyOf hpairs hkeys hkey
  · obtain ⟨p, hp, hplace⟩ := List.mem_map.mp (hall k (hw.on ht hlen hnode).1)
    refine toPrivateKeyPath_ne_none hpath ?_
    rw [← pathNode, (pathToPathSecrets_get hdistinct).mpr ⟨p, hp, hplace, rfl⟩]
    exact Option.some_ne_none _

/-- Of a path that it writes, the committer has every key. -/
theorem committerPath_keeps {path privatePath ownPath : PrivateKeyPath} (ht : Covered t)
    (hlen : t.length = size d) (hd : d ≤ 31) (hpairs : DerivesKeyPairs cs.hpke)
    (hindex : privatePath.leafIndex = i) (hplace : OnPath i privatePath.privateKeys)
    (h : createUpdatePath t i gc cs key coins exclude patch = .ok created)
    (hown : withNewLeafKey privatePath (some created.leafPrivateKey) = .ok ownPath)
    (hpath : toPrivateKeyPath (pathToPathSecrets created.pathSecrets) i cs none = .ok path) :
    KeepsKeys cs.hpke created.tree i (ownPath.privateKeys.setAll path.privateKeys.entries) := by
  obtain ⟨hw, -, -⟩ := createUpdatePath_spec hlen hd h
  obtain ⟨hplaces, hall⟩ := createUpdatePath_pathKeys ht hlen hd hpairs h hpath
  obtain ⟨exported, hexported, hown⟩ := bind_eq_ok.mp hown
  obtain rfl := Except.ok.inj hown
  simp only [updateLeafKey, hindex, leafToNodeIndex_eq]
  refine KeepsKeys.merged (hplace.set _) hplaces fun k node hnode hnone => ?_
  cases k with
  | zero =>
    rw [pow_zero, Nat.div_one] at hnode ⊢
    obtain rfl := Option.some.inj (hw.leaf.symm.trans hnode)
    rw [heldAt_of_notMem List.not_mem_nil, Record.get_set_self]
    exact ⟨exported, rfl, createUpdatePath_leafKey hlen hd hpairs h hexported⟩
  | succ k =>
    -- the nodes above the leaf are all written
    exact absurd hnone (hall k node hnode)

/-- Who joins by a path of its own holds no other keys. -/
theorem joinerPath_holds {path : PrivateKeyPath} {exported : Bytes} (ht : Covered t)
    (hlen : t.length = size d) (hd : d ≤ 31) (hpairs : DerivesKeyPairs cs.hpke)
    (h : createUpdatePath t i gc cs key coins exclude patch = .ok created)
    (hexported : cs.hpke.exportPrivateKey created.leafPrivateKey = .ok exported)
    (hpath : toPrivateKeyPath (pathToPathSecrets created.pathSecrets) i cs none = .ok path) :
    HoldsKeys cs.hpke created.tree i (path.privateKeys.set (coord 0 i) exported) := by
  obtain ⟨hw, -, -⟩ := createUpdatePath_spec hlen hd h
  obtain ⟨hplaces, hall⟩ := createUpdatePath_pathKeys ht hlen hd hpairs h hpath
  refine ⟨fun k node hnode _ => ?_, fun n privateKey hn => ?_⟩
  · cases k with
    | zero =>
      rw [pow_zero, Nat.div_one, Record.get_set_self]
      exact Option.some_ne_none _
    | succ k =>
      rw [Record.get_set_of_ne _ _ (by simp [coord_inj])]
      exact hall k node hnode
  · rw [Record.get_set] at hn
    split_ifs at hn with heq
    · obtain rfl := Option.some.inj hn
      refine ⟨0, .leaf created.updatePath.leafNode.leaf, ?_, ?_, List.not_mem_nil,
        createUpdatePath_leafKey hlen hd hpairs h hexported⟩
      · rw [heq, pow_zero, Nat.div_one]
      · rw [pow_zero, Nat.div_one, hw.leaf]
    · exact hplaces n privateKey hn

end

section
variable {cs : CiphersuiteImpl} {state : ClientState cs.signature} {pskIndex : PskIndex}
  {options : CreateCommitOptions cs.signature} {coins : CommitCoins} {currentTime : ℤ}
  {result : CreateCommitResult cs.signature} {p : CommitParts cs}

/-- A commit has no effect on its own committer's keys but those of its path. -/
theorem CommitParts.Creates.keeps (hstate : OwnsPath cs.hpke state)
    (h : p.Creates state pskIndex options coins currentTime result) :
    Reachable p.applied.tree ∧ slot p.applied.tree 0 state.privatePath.leafIndex ≠ none ∧
      KeepsKeys cs.hpke p.applied.tree state.privatePath.leafIndex
        state.privatePath.privateKeys := by
  obtain ⟨allProposals, hall, -⟩ := applyProposals_eq_ok h.applied
  have hown := (applyProposals_targets hall h.applied).2 rfl _ rfl
  obtain ⟨start, -, hadded⟩ := applyProposals_leaves hstate.tree hall h.applied
  cases applyProposals_leafAfter hstate.tree hstate.leaf hall h.applied with
  | kept untouched path leaf => exact ⟨hadded.tree, leaf, hstate.keys.keeps.kept path⟩
  | updated u hu hsender =>
    refine absurd (List.mem_map.mpr ⟨_, List.mem_append_left _ (List.mem_map_of_mem hu), ?_⟩) hown
    rw [LeafChange.target, hsender]
    rfl
  | removed mem => exact absurd (List.mem_map_of_mem mem) hown

/-- A committer holds the keys of the tree it has committed. -/
theorem CommitParts.Creates.ownsPath (hpairs : DerivesKeyPairs cs.hpke)
    (hstate : OwnsPath cs.hpke state)
    (h : p.Creates state pskIndex options coins currentTime result) :
    OwnsPath cs.hpke result.newState ∧
      result.newState.privatePath.leafIndex = state.privatePath.leafIndex := by
  obtain ⟨htree, hleaf, hkeeps⟩ := h.keeps hstate
  obtain ⟨hinvariant, d, hg⟩ := htree.invariant
  have hprivate := h.privatePath
  obtain ⟨ownPath, hown, hprivate⟩ := bind_eq_ok.mp hprivate
  obtain ⟨pathKeys, hpathKeys, hprivate⟩ := bind_eq_ok.mp hprivate
  obtain ⟨hreachable, hslot, hmerged⟩ : Reachable p.path.tree ∧
      slot p.path.tree 0 state.privatePath.leafIndex ≠ none ∧
      KeepsKeys cs.hpke p.path.tree state.privatePath.leafIndex
        (ownPath.privateKeys.setAll pathKeys.privateKeys.entries) := by
    obtain ⟨-, hcommitted⟩ | ⟨patch, created, hcreate, hcommitted⟩ := createCommitPath_cases h.path
    · rw [hcommitted] at hown hpathKeys ⊢
      obtain rfl := Except.ok.inj hown
      obtain rfl := Except.ok.inj hpathKeys
      exact ⟨htree, hleaf, hkeeps⟩
    · rw [hcommitted] at hown hpathKeys ⊢
      obtain ⟨hw, -, -⟩ := createUpdatePath_spec hg.length hg.depth hcreate
      exact ⟨htree.createUpdatePath hcreate, hw.leaf_ne_none hleaf, committerPath_keeps
        hinvariant.isCovered hg.length hg.depth hpairs rfl hkeeps.place hcreate hown hpathKeys⟩
  have hindex : ownPath.leafIndex = state.privatePath.leafIndex := by
    cases hkey : p.path.newPrivateKey with
    | none =>
      rw [hkey] at hown
      rw [← Except.ok.inj hown]
    | some newPrivateKey =>
      rw [hkey] at hown
      obtain ⟨exported, -, hown⟩ := bind_eq_ok.mp hown
      rw [← Except.ok.inj hown, updateLeafKey]
  have hnew := Except.ok.inj hprivate
  have hnewIndex : result.newState.privatePath.leafIndex = state.privatePath.leafIndex := by
    rw [← hnew]
    exact hindex
  refine ⟨⟨?_, ?_, ?_⟩, hnewIndex⟩
  · rw [h.ratchetTree]
    exact hreachable
  · rw [h.ratchetTree, hnewIndex]
    exact hslot
  · rw [h.ratchetTree, hnewIndex, ← hnew]
    exact hmerged.pruned

end

/-! ## What is pending -/

/-- What is newly stored is no Update of the member, and no key is kept under its reference. -/
def StoresOthers {sig : Signature} (state later : ClientState sig) : Prop :=
  ∀ ref p, later.unappliedProposals.get ref = some p → state.unappliedProposals.get ref = some p ∨
    pendingUpdateKey state ref = none ∧ ∀ leafNode, p.proposal = .update leafNode →
      p.senderLeafIndex ≠ some state.privatePath.leafIndex

section
variable {cs : CiphersuiteImpl} {state later : ClientState cs.signature}

theorem pendingUpdates_of_empty {hpke : Hpke}
    (h : later.unappliedProposals = emptyUnappliedProposals) : PendingUpdates hpke later where
  key ref p key hp := by
    rw [h] at hp
    cases hp
  update ref p leafNode hp := by
    rw [h] at hp
    cases hp

theorem PendingUpdates.stored {hpke : Hpke} (h : PendingUpdates hpke state)
    (hstores : StoresOthers state later) (hkeys : later.pendingUpdateKeys = state.pendingUpdateKeys)
    (hpath : later.privatePath = state.privatePath) : PendingUpdates hpke later := by
  have hkey (ref : Bytes) : pendingUpdateKey later ref = pendingUpdateKey state ref := by
    rw [pendingUpdateKey, hkeys, pendingUpdateKey]
  refine ⟨fun ref p key hp hget => ?_, fun ref p leafNode hp hupdate hsender => ?_⟩
  · rw [hkey] at hget
    rw [hpath]
    rcases hstores ref p hp with hold | ⟨hnone, -⟩
    · exact h.key ref p key hold hget
    · rw [hnone] at hget
      cases hget
  · rw [hkey]
    rw [hpath] at hsender
    rcases hstores ref p hp with hold | ⟨-, hother⟩
    · exact h.update ref p leafNode hold hupdate hsender
    · exact absurd hsender (hother leafNode hupdate)

theorem storesOthers_of_kept (h : later.unappliedProposals = state.unappliedProposals) :
    StoresOthers state later :=
  fun _ _ hp => .inl (h ▸ hp)

theorem discardPendingProposal_storesOthers (state : ClientState cs.signature) (ref : Bytes) :
    StoresOthers state (discardPendingProposal state ref) := by
  intro ref' p hp
  refine .inl ?_
  unfold discardPendingProposal at hp
  split_ifs at hp with hnone
  · exact hp
  · rw [Record.get_delete] at hp
    split_ifs at hp
    exact hp

theorem sendProposal_pending {publicMessage : Bool} {proposal : Proposal}
    {authenticatedData : Bytes} {coins : MessageCoins} {currentTime : ℤ}
    {sent : SentProposal cs.signature}
    (h : sendProposal cs state publicMessage proposal authenticatedData coins currentTime =
      .ok sent) :
    sent.newState.unappliedProposals = addUnappliedProposal sent.ref state.unappliedProposals
      proposal (some state.privatePath.leafIndex) .member ∧
    sent.newState.pendingUpdateKeys = state.pendingUpdateKeys ∧
    sent.newState.privatePath = state.privatePath := by
  obtain ⟨_, -, h⟩ := bind_eq_ok.mp h
  obtain ⟨_, -, h⟩ := bind_eq_ok.mp h
  obtain ⟨_, -, h⟩ := bind_eq_ok.mp h
  obtain ⟨_, -, h⟩ := bind_eq_ok.mp h
  split_ifs at h
  · obtain ⟨publicMessage, -, h⟩ := bind_eq_ok.mp h
    obtain ⟨ref, -, h⟩ := bind_eq_ok.mp h
    rw [← Except.ok.inj h]
    exact ⟨rfl, rfl, rfl⟩
  · obtain ⟨result, -, h⟩ := bind_eq_ok.mp h
    rw [← Except.ok.inj h]
    exact ⟨rfl, rfl, rfl⟩

theorem createCommit_unappliedProposals {pskIndex : PskIndex}
    {options : CreateCommitOptions cs.signature} {coins : CommitCoins} {currentTime : ℤ}
    {result : CreateCommitResult cs.signature}
    (h : createCommit cs state pskIndex options coins currentTime = .ok result) :
    result.newState.unappliedProposals = emptyUnappliedProposals := by
  obtain ⟨_, -, h⟩ := bind_eq_ok.mp h
  obtain ⟨_, -, h⟩ := bind_eq_ok.mp h
  obtain ⟨_, -, h⟩ := bind_eq_ok.mp h
  obtain ⟨applied, -, h⟩ := bind_eq_ok.mp h
  dsimp only at h
  cases hdata : applied.additionalResult with
  | externalCommit externalInitSecret newMemberLeafIndex priorCredential =>
    rw [hdata] at h
    cases h
  | _ =>
    rw [hdata] at h
    obtain ⟨_, -, h⟩ := bind_eq_ok.mp h
    obtain ⟨_, -, h⟩ := bind_eq_ok.mp h
    obtain ⟨_, -, h⟩ := bind_eq_ok.mp h
    obtain ⟨_, -, h⟩ := bind_eq_ok.mp h
    obtain ⟨_, -, h⟩ := bind_eq_ok.mp h
    obtain ⟨_, -, h⟩ := bind_eq_ok.mp h
    obtain ⟨_, -, h⟩ := bind_eq_ok.mp h
    obtain ⟨_, -, h⟩ := bind_eq_ok.mp h
    obtain ⟨_, -, h⟩ := bind_eq_ok.mp h
    obtain ⟨_, -, h⟩ := bind_eq_ok.mp h
    obtain ⟨_, -, h⟩ := bind_eq_ok.mp h
    obtain ⟨_, -, h⟩ := bind_eq_ok.mp h
    rw [← Except.ok.inj h]

theorem signLeafNodeUpdate_hpkePublicKey {tbs : LeafNode} {info : LeafNodeGroupInfo}
    {sig : Signature} {coins : Bytes} {key : sig.SignatureSecretKey} {signed : LeafNodeUpdate}
    (h : signLeafNodeUpdate tbs info sig coins key = .ok signed) :
    signed.leaf.hpkePublicKey = tbs.hpkePublicKey := by
  obtain ⟨signature, -, h⟩ := bind_eq_ok.mp h
  rw [← Except.ok.inj h]

/-- The halves of the key pair that is drawn for an Update belong together. -/
def UpdateCoins.Matches (coins : UpdateCoins cs) : Prop :=
  ∀ privateBytes publicBytes, cs.hpke.exportPrivateKey coins.privateKey = .ok privateBytes →
    cs.hpke.exportPublicKey coins.publicKey = .ok publicBytes →
    PrivateKeyOf cs.hpke privateBytes publicBytes

/-- An Update is stored with its key. -/
theorem PendingUpdates.createUpdateProposal {publicMessage : Bool}
    {options : CreateUpdateProposalOptions cs.signature} {coins : UpdateCoins cs} {currentTime : ℤ}
    {result : CreateProposalResult cs.signature} (hpending : PendingUpdates cs.hpke state)
    (hcoins : coins.Matches)
    (h : createUpdateProposal cs state publicMessage options coins currentTime = .ok result) :
    PendingUpdates cs.hpke result.newState := by
  obtain ⟨_, -, h⟩ := bind_eq_ok.mp h
  dsimp only at h
  cases hnode : leafAt state.ratchetTree state.privatePath.leafIndex with
  | none =>
    rw [hnode] at h
    cases h
  | some node =>
    rw [hnode] at h
    obtain ⟨resolved, -, h⟩ := bind_eq_ok.mp h
    obtain ⟨hpkePublicKey, hpublic, h⟩ := bind_eq_ok.mp h
    obtain ⟨leafNode, hleafNode, h⟩ := bind_eq_ok.mp h
    obtain ⟨sent, hsent, h⟩ := bind_eq_ok.mp h
    obtain ⟨hpkePrivateKey, hprivate, h⟩ := bind_eq_ok.mp h
    obtain ⟨hstored, -, hpath⟩ := sendProposal_pending hsent
    have hleafKey := signLeafNodeUpdate_hpkePublicKey hleafNode
    rw [← Except.ok.inj h]
    have hkey (ref : Bytes) : (addPendingUpdateKey sent.ref state.pendingUpdateKeys {
        hpkePrivateKey := hpkePrivateKey
        signaturePrivateKey := (resolved.getD {}).signature.map Prod.snd }).get ref =
        if ref = sent.ref then some {
          hpkePrivateKey := hpkePrivateKey
          signaturePrivateKey := (resolved.getD {}).signature.map Prod.snd }
        else pendingUpdateKey state ref := by
      rw [addPendingUpdateKey, Record.get_set, pendingUpdateKey]
      cases state.pendingUpdateKeys <;> rfl
    refine ⟨fun ref p key hp hget => ?_, fun ref p updated hp hupdate hsender => ?_⟩
    all_goals
      simp only [hstored, addUnappliedProposal, Record.get_set] at hp
    · simp only [pendingUpdateKey, Option.bind_some, hkey] at hget
      simp only [hpath]
      split_ifs at hp hget with heq
      · obtain rfl := Option.some.inj hp
        obtain rfl := Option.some.inj hget
        refine ⟨leafNode, rfl, rfl, ?_⟩
        rw [hleafKey]
        exact hcoins _ _ hprivate hpublic
      · exact hpending.key ref p key hp hget
    · simp only [pendingUpdateKey, Option.bind_some, hkey]
      simp only [hpath] at hsender
      split_ifs at hp ⊢ with heq
      · exact Option.some_ne_none _
      · exact hpending.update ref p updated hp hupdate hsender

end

/-! ## Runs -/

/-- A member holds the keys of its path, and with its pending Updates those of their leaves. -/
structure HoldsOwnKeys {sig : Signature} (hpke : Hpke) (state : ClientState sig) : Prop where
  path : OwnsPath hpke state
  pending : PendingUpdates hpke state

section
variable {cs : CiphersuiteImpl} {state later first last : ClientState cs.signature}

/-- The key pair of an Update is one, and a member stores no Update of its own otherwise, and
nothing under the reference of one. -/
def Operation.Orderly (state later : ClientState cs.signature) : Operation cs → Prop
  | .createUpdateProposal _ _ coins _ => coins.Matches
  | .createProposal _ _ _ _ _ => StoresOthers state later
  | .processMessage _ _ _ _ => StoresOthers state later
  | _ => True

/-- The states that orderly operations lead to. -/
def OrderlyRun (cs : CiphersuiteImpl) :
    ClientState cs.signature → ClientState cs.signature → Prop :=
  Relation.ReflTransGen fun state later =>
    ∃ op : Operation cs, op.run state = .ok later ∧ op.Orderly state later

theorem OwnsPath.within {hpke : Hpke} (h : OwnsPath hpke state)
    (hstays : StaysInEpoch state later) : OwnsPath hpke later where
  tree := hstays.ratchetTree ▸ h.tree
  leaf := by
    rw [hstays.ratchetTree, hstays.privatePath]
    exact h.leaf
  keys := by
    rw [hstays.ratchetTree, hstays.privatePath]
    exact h.keys

theorem HoldsOwnKeys.ownsPath (hpairs : DerivesKeyPairs cs.hpke) (h : HoldsOwnKeys cs.hpke state)
    (hstep : EpochStep cs state later) :
    OwnsPath cs.hpke later ∧ later.privatePath.leafIndex = state.privatePath.leafIndex := by
  cases hstep with
  | within stays => exact ⟨h.path.within stays, by rw [stays.privatePath]⟩
  | created created =>
    obtain ⟨p, hcreates⟩ := createCommit_eq_ok created
    exact hcreates.ownsPath hpairs h.path
  | followed f content commit follows =>
    exact follows.ownsPath hpairs (h.path.within ⟨rfl, rfl, rfl, rfl, rfl, rfl, rfl⟩)
      (h.pending.stored (storesOthers_of_kept rfl) rfl rfl)

theorem PendingUpdates.processed {message : MlsHandshakeMessage} {pskIndex : PskIndex}
    {action : IncomingMessageCallback} {currentTime : ℤ} {r : ProcessMessageResult cs.signature}
    (h : PendingUpdates cs.hpke state) (hstores : StoresOthers state r.state)
    (hr : processMessage cs message state pskIndex action currentTime = .ok r) :
    PendingUpdates cs.hpke r.state := by
  cases processMessage_processed hr with
  | removed current => exact pendingUpdates_of_empty rfl
  | followed current f content commit follows => exact pendingUpdates_of_empty rfl
  | late former retained contentType read_eq => exact h.stored hstores rfl rfl
  | application current => exact h.stored hstores rfl rfl
  | refused current => exact h.stored hstores rfl rfl
  | proposal unappliedProposals current => exact h.stored hstores rfl rfl

theorem PendingUpdates.operate {op : Operation cs} (h : PendingUpdates cs.hpke state)
    (hop : op.run state = .ok later) (horderly : op.Orderly state later) :
    PendingUpdates cs.hpke later := by
  cases op with
  | processMessage message pskIndex action currentTime =>
    obtain ⟨r, hr, rfl⟩ := map_eq_ok.mp hop
    exact h.processed horderly hr
  | createCommit pskIndex options coins currentTime =>
    obtain ⟨result, hresult, rfl⟩ := map_eq_ok.mp hop
    exact pendingUpdates_of_empty (createCommit_unappliedProposals hresult)
  | createProposal publicMessage proposal authenticatedData coins currentTime =>
    obtain ⟨result, hresult, rfl⟩ := map_eq_ok.mp hop
    obtain ⟨sent, hsent, hresult⟩ := bind_eq_ok.mp hresult
    obtain rfl := Except.ok.inj hresult
    obtain ⟨-, hkeys, hpath⟩ := sendProposal_pending hsent
    exact h.stored horderly hkeys hpath
  | createUpdateProposal publicMessage options coins currentTime =>
    obtain ⟨result, hresult, rfl⟩ := map_eq_ok.mp hop
    exact h.createUpdateProposal horderly hresult
  | createApplicationMessage message authenticatedData coins =>
    obtain ⟨result, hresult, rfl⟩ := map_eq_ok.mp hop
    obtain ⟨_, -, hresult⟩ := bind_eq_ok.mp hresult
    obtain ⟨protectedMessage, -, hresult⟩ := bind_eq_ok.mp hresult
    rw [← Except.ok.inj hresult]
    exact h.stored (storesOthers_of_kept rfl) rfl rfl
  | discardPendingProposal ref =>
    obtain rfl := Except.ok.inj hop
    refine h.stored (discardPendingProposal_storesOthers state ref) ?_
      (discardPendingProposal_staysInEpoch state ref).privatePath
    unfold WebcryptoMls.discardPendingProposal
    split_ifs <;> rfl

/-- In an orderly run a member keeps its place, and the keys of its place are those it holds. -/
theorem OrderlyRun.holdsOwnKeys (hpairs : DerivesKeyPairs cs.hpke)
    (hfirst : HoldsOwnKeys cs.hpke first) (hrun : OrderlyRun cs first last) :
    HoldsOwnKeys cs.hpke last ∧ last.privatePath.leafIndex = first.privatePath.leafIndex := by
  induction hrun with
  | refl => exact ⟨hfirst, rfl⟩
  | tail _ hstep ih =>
    obtain ⟨op, hop, horderly⟩ := hstep
    obtain ⟨hbefore, hindex⟩ := ih
    obtain ⟨hpath, hkept⟩ := hbefore.ownsPath hpairs (Operation.run_epochStep hop)
    exact ⟨⟨hpath, hbefore.pending.operate hop horderly⟩, hkept.trans hindex⟩

/-- The ways into a group. A Welcome's joiner has the keys that its committer lets it have. -/
inductive Begins (cs : CiphersuiteImpl) : ClientState cs.signature → Prop
  | created {groupId epochSecret : Bytes} {keyPackage : KeyPackage}
      {privateKeys : PrivateKeyPackage cs.signature} {extensions : List Extension}
      {clientConfig : ClientConfig} {state : ClientState cs.signature}
      (created : createGroup cs groupId keyPackage privateKeys extensions clientConfig epochSecret =
        .ok state)
      (leafKey : PrivateKeyOf cs.hpke privateKeys.hpkePrivateKey
        keyPackage.leafNode.leaf.hpkePublicKey) : Begins cs state
  | joined {welcome : Welcome} {keyPackage : KeyPackage}
      {privateKeys : PrivateKeyPackage cs.signature} {pskSearch : PskIndex}
      {options : JoinOptions cs.signature} {currentTime : ℤ} {state : ClientState cs.signature}
      (joined : joinGroup cs welcome keyPackage privateKeys pskSearch options currentTime =
        .ok state) (path : OwnsPath cs.hpke state) : Begins cs state
  | joinedExternally {groupInfo : GroupInfo} {keyPackage : KeyPackage}
      {privateKeys : PrivateKeyPackage cs.signature} {resync : Bool} {tree : Option RatchetTree}
      {ratchetTree : RatchetTree} {clientConfig : ClientConfig} {authenticatedData : Bytes}
      {coins : ExternalCoins} {currentTime : ℤ} {join : ExternalJoin cs.signature}
      (joined : joinGroupExternal cs groupInfo keyPackage privateKeys resync tree clientConfig
        authenticatedData coins currentTime = .ok join)
      (given : joinedTree groupInfo tree = .ok ratchetTree) (reachable : Reachable ratchetTree) :
      Begins cs join.newState

theorem createGroup_holdsOwnKeys {groupId epochSecret : Bytes} {keyPackage : KeyPackage}
    {privateKeys : PrivateKeyPackage cs.signature} {extensions : List Extension}
    {clientConfig : ClientConfig}
    (h : createGroup cs groupId keyPackage privateKeys extensions clientConfig epochSecret =
      .ok state)
    (hkey : PrivateKeyOf cs.hpke privateKeys.hpkePrivateKey
      keyPackage.leafNode.leaf.hpkePublicKey) : HoldsOwnKeys cs.hpke state := by
  obtain ⟨htree, hleaf⟩ := createGroup_reachable h
  obtain ⟨_, -, h⟩ := bind_eq_ok.mp h
  obtain ⟨_, -, h⟩ := bind_eq_ok.mp h
  obtain ⟨_, -, h⟩ := bind_eq_ok.mp h
  obtain ⟨_, -, h⟩ := bind_eq_ok.mp h
  obtain ⟨_, -, h⟩ := bind_eq_ok.mp h
  rw [← Except.ok.inj h] at htree hleaf ⊢
  refine ⟨⟨htree, hleaf, ?_⟩, pendingUpdates_of_empty rfl⟩
  refine holdsKeys_newLeaf htree.invariant.1.typed (fun k p hp => ?_) (by simp [slot_singleton])
    hkey
  rw [slot_singleton] at hp
  split_ifs at hp
  cases hp

theorem joinGroup_unappliedProposals {welcome : Welcome} {keyPackage : KeyPackage}
    {privateKeys : PrivateKeyPackage cs.signature} {pskSearch : PskIndex}
    {options : JoinOptions cs.signature} {currentTime : ℤ}
    (h : joinGroup cs welcome keyPackage privateKeys pskSearch options currentTime = .ok state) :
    state.unappliedProposals = emptyUnappliedProposals := by
  obtain ⟨_, _, result, -, -, -, henter, rfl⟩ := joinGroup_eq_ok h
  obtain ⟨_, -, henter⟩ := bind_eq_ok.mp henter
  obtain ⟨_, -, henter⟩ := bind_eq_ok.mp henter
  obtain ⟨_, -, henter⟩ := bind_eq_ok.mp henter
  obtain ⟨_, -, henter⟩ := bind_eq_ok.mp henter
  split_ifs at henter
  obtain ⟨_, -, henter⟩ := bind_eq_ok.mp henter
  rw [← Except.ok.inj henter]

theorem joinGroupExternal_holdsOwnKeys {groupInfo : GroupInfo} {keyPackage : KeyPackage}
    {privateKeys : PrivateKeyPackage cs.signature} {resync : Bool} {tree : Option RatchetTree}
    {ratchetTree : RatchetTree} {clientConfig : ClientConfig} {authenticatedData : Bytes}
    {coins : ExternalCoins} {currentTime : ℤ} {join : ExternalJoin cs.signature}
    (hpairs : DerivesKeyPairs cs.hpke) (hgiven : joinedTree groupInfo tree = .ok ratchetTree)
    (htree : Reachable ratchetTree)
    (h : joinGroupExternal cs groupInfo keyPackage privateKeys resync tree clientConfig
      authenticatedData coins currentTime = .ok join) : HoldsOwnKeys cs.hpke join.newState := by
  obtain ⟨externalPub, -, h⟩ := bind_eq_ok.mp h
  obtain ⟨exportedSecret, -, h⟩ := bind_eq_ok.mp h
  obtain ⟨validated, hvalidated, h⟩ := bind_eq_ok.mp h
  obtain ⟨former, hformer, h⟩ := bind_eq_ok.mp h
  obtain ⟨updatedTree, hupdated, h⟩ := bind_eq_ok.mp h
  obtain ⟨⟨treeWithNewLeaf, newLeafNodeIndex⟩, hadd, h⟩ := bind_eq_ok.mp h
  obtain ⟨newLeafIndex, hindex, h⟩ := bind_eq_ok.mp h
  obtain ⟨path, hpath, h⟩ := bind_eq_ok.mp h
  obtain ⟨pathKeys, hpathKeys, h⟩ := bind_eq_ok.mp h
  obtain ⟨exportedLeafKey, hexported, h⟩ := bind_eq_ok.mp h
  obtain ⟨_, -, h⟩ := bind_eq_ok.mp h
  obtain ⟨_, -, h⟩ := bind_eq_ok.mp h
  obtain ⟨_, -, h⟩ := bind_eq_ok.mp h
  obtain ⟨_, -, h⟩ := bind_eq_ok.mp h
  obtain ⟨_, -, h⟩ := bind_eq_ok.mp h
  obtain ⟨_, -, h⟩ := bind_eq_ok.mp h
  have hvalid : Reachable validated := by
    rw [← Except.ok.inj (hgiven.symm.trans (validateExternalJoin_eq_ok hvalidated).1)]
    exact htree
  have hwithout : Reachable updatedTree := by
    cases former with
    | none =>
      rw [← Except.ok.inj hupdated]
      exact hvalid
    | some formerLeafIndex => exact hvalid.removeLeafNode hupdated
  have hreachable := hwithout.addLeafNode hadd
  obtain ⟨hinvariant, d, hg⟩ := hreachable.invariant
  obtain ⟨hw, -, -⟩ := createUpdatePath_spec hg.length hg.depth hpath
  have hholds := joinerPath_holds hinvariant.isCovered hg.length hg.depth hpairs hpath hexported
    hpathKeys
  have hleafIndex := (toPrivateKeyPath_get hpathKeys).1
  rw [← Except.ok.inj h]
  refine ⟨⟨hreachable.createUpdatePath hpath, ?_, ?_⟩, pendingUpdates_of_empty rfl⟩
  · simp only [updateLeafKey, hleafIndex, hw.leaf]
    exact Option.some_ne_none _
  · simp only [updateLeafKey, hleafIndex, leafToNodeIndex_eq]
    exact hholds

theorem Begins.holdsOwnKeys (hpairs : DerivesKeyPairs cs.hpke) (h : Begins cs first) :
    HoldsOwnKeys cs.hpke first := by
  cases h with
  | created created leafKey => exact createGroup_holdsOwnKeys created leafKey
  | joined joined path =>
    exact ⟨path, pendingUpdates_of_empty (joinGroup_unappliedProposals joined)⟩
  | joinedExternally joined given reachable =>
    exact joinGroupExternal_holdsOwnKeys hpairs given reachable joined

/-- Whichever way a member has come into a group, it keeps its place over every orderly run, and
the private keys it holds are those of its leaf and of the nodes above that do not list it as
unmerged, each the one of the public key in the tree, and no others. -/
theorem private_keys_of_run (hpairs : DerivesKeyPairs cs.hpke) (hbegins : Begins cs first)
    (hrun : OrderlyRun cs first last) :
    last.privatePath.leafIndex = first.privatePath.leafIndex ∧
      slot last.ratchetTree 0 last.privatePath.leafIndex ≠ none ∧
      HoldsKeys cs.hpke last.ratchetTree last.privatePath.leafIndex
        last.privatePath.privateKeys := by
  obtain ⟨hlast, hindex⟩ := hrun.holdsOwnKeys hpairs (hbegins.holdsOwnKeys hpairs)
  exact ⟨hindex, hlast.path.leaf, hlast.path.keys⟩

end

/-! ## A group that grows and shrinks -/

def addMembers (keyPackages : List KeyPackage) : Operation plainSuite :=
  .createCommit emptyPskIndex { extraProposals := keyPackages.map .add } (plainCoins []) 0

def removeMember (leafIndex : ℕ) : Operation plainSuite :=
  .createCommit emptyPskIndex { extraProposals := [.remove leafIndex] } (plainCoins [4]) 0

/-- A member creates a group, adds two others and removes one of them. -/
def keptGroup : Except MlsError
    (KeyPackage × ClientState plainSuite.signature × ClientState plainSuite.signature) := do
  let keyPackage ← plainKeyPackage 1
  let added ← [2, 3].mapM plainKeyPackage
  let group ← createGroup plainSuite [] keyPackage (plainPrivateKeys 1) [] plainConfig []
  let grown ← (addMembers added).run group
  let later ← (removeMember 2).run grown
  pure (keyPackage, group, later)

theorem group_creator_keeps_keys : ∃ first last : ClientState plainSuite.signature,
    OrderlyRun plainSuite first last ∧ last.groupContext.epoch = 2 ∧
      last.privatePath.leafIndex = first.privatePath.leafIndex ∧
      slot last.ratchetTree 0 last.privatePath.leafIndex ≠ none ∧
      HoldsKeys plainSuite.hpke last.ratchetTree last.privatePath.leafIndex
        last.privatePath.privateKeys := by
  have heval : (keptGroup.map fun g => decide (g.1.leafNode.leaf.hpkePublicKey = [1]) &&
      decide (g.2.2.groupContext.epoch = 2)) = .ok true := by
    decide +kernel
  obtain ⟨g, hgroup, hexpected⟩ := map_eq_ok.mp heval
  simp only [Bool.and_eq_true, decide_eq_true_eq] at hexpected
  obtain ⟨keyPackage, -, hgroup⟩ := bind_eq_ok.mp hgroup
  obtain ⟨added, -, hgroup⟩ := bind_eq_ok.mp hgroup
  obtain ⟨group, hcreated, hgroup⟩ := bind_eq_ok.mp hgroup
  obtain ⟨grown, hgrown, hgroup⟩ := bind_eq_ok.mp hgroup
  obtain ⟨later, hlater, hgroup⟩ := bind_eq_ok.mp hgroup
  obtain rfl := Except.ok.inj hgroup
  obtain ⟨hkey, hepoch⟩ := hexpected
  dsimp only at hkey hepoch
  have hrun : OrderlyRun plainSuite group later :=
    .tail (.single ⟨addMembers added, hgrown, trivial⟩) ⟨removeMember 2, hlater, trivial⟩
  have hbegins : Begins plainSuite group := .created hcreated (hkey ▸ plainSuite_privateKeyOf _)
  exact ⟨group, later, hrun, hepoch, private_keys_of_run plainSuite_fitting.keyPairs hbegins hrun⟩

end WebcryptoMls
