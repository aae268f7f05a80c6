import WebcryptoMls.DistinctKeys
import WebcryptoMls.EpochNetwork
import WebcryptoMls.KeyConfirmation
import WebcryptoMls.TreeExtension
import WebcryptoMls.WelcomePaths
import WebcryptoMls.WelcomeSecrets

/-!
# Welcomed members

Whoever holds the private keys of a key package that a commit adds can join with the commit's
Welcome: it opens the secrets of the committer's new epoch, finds its leaf in the committer's
tree, and derives the keys of every node above it that is to be known to it. What a join can
still fail by are the checks on the group itself.
-/
namespace WebcryptoMls
open InOrder (index size Below)
open PrefixCode Records

/-! ## The joiner's leaf -/

theorem encodeLeafNode_hpkePublicKey {a b : LeafNode} {x : Bytes} (ha : encodeLeafNode a = .ok x)
    (hb : encodeLeafNode b = .ok x) : a.hpkePublicKey = b.hpkePublicKey := by
  obtain ⟨u, u', hu, -, rfl⟩ := concat_cons_eq_ok.mp ha
  obtain ⟨v, v', hv, -, hx⟩ := concat_cons_eq_ok.mp hb
  obtain rfl := prefixFree_encodeLeafNodeData a b u v u' v' hu hv hx
  obtain ⟨w, w', hw, -, rfl⟩ := concat_cons_eq_ok.mp hu
  obtain ⟨z, z', hz, -, hx⟩ := concat_cons_eq_ok.mp hv
  obtain rfl := prefixFree_encodeVarLenData _ _ w z w' z' hw hz hx
  exact encodeVarLenData_inj hw hz

/-- Every leaf of a tree that was hashed has an encoding. -/
theorem encodeLeafNode_of_hashed {t : RatchetTree} {h : Hash} {d j : ℕ} {leaf : LeafNode} {x : Bytes}
    (hhash : subtreeHashAt (slot t) h d 0 = .ok x) (hj : j < 2 ^ d)
    (hleaf : slot t 0 j = some (.leaf leaf)) : ∃ y, encodeLeafNode leaf = .ok y := by
  obtain ⟨x', hx'⟩ := subtreeHashAt_below hhash
    (show Below 0 j d 0 from InOrder.below_leaf.mpr (Nat.div_eq_of_lt hj))
  obtain ⟨y, hy, -⟩ := subtreeHashAt_eq_ok.mp hx'
  obtain ⟨o, ho, henc⟩ := subtreeInputAt_zero_eq_ok.mp hy
  obtain rfl : o = some leaf := by
    cases o with
    | none => rw [hleaf] at ho; cases ho
    | some l => rw [hleaf] at ho; simpa [eq_comm] using ho
  obtain ⟨u, hu⟩ := concat_part_ok henc
    (e := contramapEncoder (encodeOptional encodeLeafNode) LeafNodeHashInput.leafNode) (by simp)
  obtain ⟨y', hy', -⟩ := encodeOptional_some_eq_ok.mp hu
  exact ⟨y', hy'⟩

theorem findLeafIndexLoop_eq {leaf : LeafNode} {i : ℕ} {x : Bytes} (hx : encodeLeafNode leaf = .ok x)
    {nodes : List (Option Node × ℕ)}
    (hnodes : ∀ n node, (some node, n) ∈ nodes → isLeaf n → ∃ l y, node = .leaf l ∧
      encodeLeafNode l = .ok y ∧ (y = x → n = 2 * i))
    (hmem : (some (.leaf leaf), 2 * i) ∈ nodes) : findLeafIndexLoop leaf nodes = .ok (some i) := by
  induction nodes with
  | nil => cases hmem
  | cons entry nodes ih =>
    have hrest : ∀ n node, (some node, n) ∈ nodes → isLeaf n → ∃ l y, node = .leaf l ∧
        encodeLeafNode l = .ok y ∧ (y = x → n = 2 * i) := fun n node hn =>
      hnodes n node (List.mem_cons_of_mem _ hn)
    obtain ⟨_ | node, n⟩ := entry
    · exact ih hrest ((List.mem_cons.mp hmem).resolve_left (by simp))
    · simp only [findLeafIndexLoop]
      split_ifs with hisLeaf
      · obtain ⟨l, y, rfl, hy, hsole⟩ := hnodes n node (List.mem_cons_self ..) hisLeaf
        simp only [hy, hx, ok_bind, constantTimeEqual_iff]
        split_ifs with hequal
        · have hindex : ((n : ℕ) : ℤ) = coord 0 i := by
            rw [hsole hequal, coord, InOrder.index_zero]
          rw [hindex, nodeToLeafIndex_coord]
          rfl
        · refine ih hrest ((List.mem_cons.mp hmem).resolve_left fun heq => hequal ?_)
          obtain ⟨hl, -⟩ := Prod.mk.inj heq
          rw [Node.leaf.inj (Option.some.inj hl)] at hx
          exact Except.ok.inj (hy.symm.trans hx)
      · refine ih hrest ((List.mem_cons.mp hmem).resolve_left fun heq => hisLeaf ?_)
        rw [← (Prod.mk.inj heq).2]
        simp [isLeaf]

/-- A leaf that no other leaf is encoded like is found in its place. -/
theorem joinerLeaf_eq {t : RatchetTree} {h : Hash} {i : ℕ} {leaf : LeafNode} {treeHash : Bytes}
    (hwidth : HashedWidth t) (ht : Typed t) (hhash : treeHashRoot t h = .ok treeHash)
    (hleaf : slot t 0 i = some (.leaf leaf))
    (hsole : ∀ j other x, slot t 0 j = some (.leaf other) → encodeLeafNode other = .ok x →
      encodeLeafNode leaf = .ok x → j = i) : joinerLeaf t leaf = .ok i := by
  obtain ⟨d, hd, hlen⟩ := hwidth
  rw [treeHashRoot_coord hlen hd] at hhash
  have hlt {j : ℕ} {node : Node} (hj : slot t 0 j = some node) : j < 2 ^ d :=
    InOrder.leaf_lt_size.mp (hlen ▸ index_lt_of_slot hj)
  obtain ⟨x, hx⟩ := encodeLeafNode_of_hashed hhash (hlt hleaf) hleaf
  have hslot {n : ℕ} {node : Node} (hn : t[n]? = some (some node)) (hisLeaf : isLeaf n) :
      ∃ j, n = 2 * j ∧ slot t 0 j = some node := by
    have heven : n = 2 * (n / 2) := by
      simp only [isLeaf, beq_iff_eq] at hisLeaf
      omega
    refine ⟨n / 2, heven, ?_⟩
    rw [slot_eq_getElem?, InOrder.index_zero, ← heven, hn]
    rfl
  have hfind : findLeafIndex t leaf = .ok (some i) := by
    refine findLeafIndexLoop_eq hx (fun n node hn hisLeaf => ?_) ?_
    · have hat : t[n]? = some (some node) := List.mem_zipIdx_iff_getElem?.mp hn
      obtain ⟨j, rfl, hnode⟩ := hslot hat hisLeaf
      obtain ⟨l, rfl⟩ := ht.leaf _ _ hnode
      obtain ⟨y, hy⟩ := encodeLeafNode_of_hashed hhash (hlt hnode) hnode
      refine ⟨l, y, rfl, hy, fun heq => ?_⟩
      rw [hsole j l y hnode hy (heq ▸ hx)]
    · rw [List.mem_zipIdx_iff_getElem?]
      rw [slot_eq_getElem?, InOrder.index_zero, Option.join_eq_some_iff] at hleaf
      exact hleaf
  rw [joinerLeaf, hfind]
  rfl

/-! ## The joiner's keys -/

section
variable {cs : CiphersuiteImpl} {t : RatchetTree} {d i own : ℕ} {leaf : LeafNode} {privateKey : Bytes}
  {nodeIndex : ℤ}

/-- Above a new leaf, every node the leaf is not unmerged at is one the committer wrote. -/
theorem NewLeaf.level (hnew : NewLeaf t i) (ht : Typed t) {k : ℕ} {node : Node}
    (hnode : slot t k (i / 2 ^ k) = some node) (hmerged : i ∉ node.unmergedLeaves) : k = 0 := by
  cases k with
  | zero => rfl
  | succ k =>
    obtain ⟨p, rfl⟩ := ht.parent k _ _ hnode
    exact absurd (hnew _ p hnode) hmerged

/-- The leaf's own key is all there is to hold as long as no path goes over it. -/
theorem holdsKeys_newLeaf {hpke : Hpke} (ht : Typed t) (hnew : NewLeaf t i)
    (hleaf : slot t 0 i = some (.leaf leaf))
    (hprivate : PrivateKeyOf hpke privateKey leaf.hpkePublicKey) :
    HoldsKeys hpke t i (Record.empty.set (leafToNodeIndex i) privateKey) where
  all k node hnode hmerged := by
    obtain rfl := hnew.level ht hnode hmerged
    rw [pow_zero, Nat.div_one, ← leafToNodeIndex_eq, Record.get_set_self]
    exact Option.some_ne_none _
  only n key hn := by
    rw [Record.get_set] at hn
    split_ifs at hn with heq
    · obtain rfl := Option.some.inj hn
      refine ⟨0, .leaf leaf, ?_, ?_, List.not_mem_nil, hprivate⟩
      · rw [heq, leafToNodeIndex_eq, pow_zero, Nat.div_one]
      · rw [pow_zero, Nat.div_one, hleaf]
    · cases hn

/-- The lowest node of a leaf's filtered path that another leaf is under. -/
theorem firstCommonAncestor_eq_branch (hlen : t.length = size d) (hd : d ≤ 31)
    (hl : slot t 0 i ≠ none) (hne : i ≠ own)
    (h : firstCommonAncestor t i own = .ok nodeIndex) :
    ∃ k, nodeIndex = coord k (i / 2 ^ k) := by
  obtain ⟨fdp, hfdp, -⟩ := bind_eq_ok.mp h
  obtain ⟨hd30, hown⟩ := filteredDirectPathAndCopathResolution_eq_ok hlen hd hfdp
  have hlt : i < 2 ^ d := by
    obtain ⟨leaf, hleaf⟩ := Option.ne_none_iff_exists'.mp hl
    exact InOrder.leaf_lt_size.mp (hlen ▸ index_lt_of_slot hleaf)
  obtain ⟨m, hmd, hm⟩ := exists_branch hown hlt hne
  have hmem : m ∈ filteredLevels t d own := mem_filteredLevels.mpr
    ⟨hmd, fun hnil => hl (resolutionAt_eq_nil.mp hnil 0 _ (InOrder.below_leaf.mpr hm))⟩
  obtain ⟨lower, upper, hsplit⟩ := List.append_of_mem hmem
  obtain ⟨-, -, hcross⟩ := List.pairwise_append.mp (hsplit ▸ filteredLevels_sorted t d own)
  rw [firstCommonAncestor, filteredDirectPathAndCopathResolution_coord hlen hd30 hown, ok_bind, hsplit,
    firstAncestor_eq hd30 hlt hlen hm (fun _ => rfl)
      (fun m' hm' => hcross m' hm' m (List.mem_cons_self ..)) hmd] at h
  refine ⟨m + 1, ?_⟩
  rw [(branch_iff hm).mpr le_rfl]
  exact (Except.ok.inj h).symm

theorem joinerPrivatePath_noPath {cs : CiphersuiteImpl} (hlen : t.length = size d) (hd : d ≤ 31)
    (ht : Typed t) (hnew : NewLeaf t i) (hleaf : slot t 0 i = some (.leaf leaf)) (hne : i ≠ own)
    (hprivate : PrivateKeyOf cs.hpke privateKey leaf.hpkePublicKey)
    (hnode : firstCommonAncestor t i own = .ok nodeIndex) :
    ∃ keys, joinerPrivatePath cs t i own privateKey none = .ok { leafIndex := i, privateKeys := keys } ∧
      HoldsKeys cs.hpke t i keys := by
  refine ⟨_, ?_, holdsKeys_newLeaf ht hnew hleaf hprivate⟩
  obtain ⟨k, hk⟩ := firstCommonAncestor_eq_branch hlen hd (by simp [hleaf]) hne hnode
  simp only [joinerPrivatePath, hnode, ok_bind]
  split
  · rename_i parent hparent
    rw [hk, nodeAt_coord] at hparent
    have hmem := hnew k parent hparent
    simp [hmem]
    rfl
  · rfl

theorem exists_mem_of_forall₂ {α β : Type} {R : α → β → Prop} {l : List α} {l' : List β}
    (h : List.Forall₂ R l l') {b : β} (hb : b ∈ l') : ∃ a ∈ l, R a b := by
  induction h with
  | nil => cases hb
  | cons hab _ ih =>
    rcases List.mem_cons.mp hb with rfl | hb
    · exact ⟨_, List.mem_cons_self .., hab⟩
    · obtain ⟨a, ha, hr⟩ := ih hb
      exact ⟨a, List.mem_cons_of_mem _ ha, hr⟩

section
variable {gc : GroupContext} {key : cs.signature.SignatureSecretKey} {coins : PathCoins}
  {exclude : List ℤ} {patch : ResolvedLeafNodePatch cs.signature} {created : CreatedPath cs}
  {m : ℕ} {upper : List ℕ} {sent : PathSecret} {above : List PathSecret} {sender : PrivateKeyPath}

/-- What the sender derives of a secret of its path, a receiver of that secret derives and finds
to be right for the tree. -/
theorem SecretsAbove.toPrivateKey_eq (hs : SecretsAbove cs t d own i created m upper sent above)
    (hsender : toPrivateKeyPath (pathToPathSecrets created.pathSecrets) own cs none = .ok sender)
    {p : PathSecret} (hp : p ∈ sent :: above) :
    ∃ m' keys q privateKey, m' ∈ m :: upper ∧ p.nodeIndex = pathNode own m' ∧
      slot created.tree (m' + 1) (own / 2 ^ (m' + 1)) = some (.parent q) ∧
      secretKeys cs p.secret = .ok keys ∧ q.hpkePublicKey = keys.2 ∧
      toPrivateKey cs none (p.nodeIndex, p.secret) = .ok (p.nodeIndex, privateKey) ∧
      toPrivateKey cs (some created.tree) (p.nodeIndex, p.secret) = .ok (p.nodeIndex, privateKey) := by
  obtain ⟨m', hm', hindex, keys, q, hkeys, hq, hpublic⟩ :
      ∃ m' ∈ m :: upper, p.nodeIndex = pathNode own m' ∧ HoldsSecretKey cs created.tree own m' p := by
    exact exists_mem_of_forall₂ hs.nodes hp
  obtain ⟨asArray, hmap, -⟩ := bind_eq_ok.mp hsender
  have hentry : (p.nodeIndex, p.secret) ∈ (pathToPathSecrets created.pathSecrets).entries := by
    rw [← Record.get_eq_some, pathToPathSecrets, Record.get_ofEntries_eq_some]
    · exact List.mem_map_of_mem (f := fun cur => (cur.nodeIndex, cur.secret)) (hs.suffix.subset hp)
    · rw [List.map_map]
      exact hs.distinct
  obtain ⟨⟨n, privateKey⟩, -, hkey⟩ := exists_mem_of_mapM hmap _ hentry
  obtain rfl : n = p.nodeIndex := toPrivateKey_fst hkey
  have hnode : nodeAt created.tree p.nodeIndex = some (.parent q) := by
    rw [hindex, pathNode, nodeAt_coord, hq]
  refine ⟨m', keys, q, privateKey, hm', hindex, hq, hkeys, hpublic, hkey, ?_⟩
  rw [toPrivateKey_verified hkeys hnode hpublic, hkey]

/-- A receiver's keys of the secrets it derives: one at each of the levels. -/
theorem SecretsAbove.exists_keys (hs : SecretsAbove cs t d own i created m upper sent above)
    (hpairs : DerivesKeyPairs cs.hpke)
    (hsender : toPrivateKeyPath (pathToPathSecrets created.pathSecrets) own cs none = .ok sender)
    (l : ℕ) :
    ∃ keys, toPrivateKeyPath (.ofEntries ((sent :: above).map fun p => (p.nodeIndex, p.secret))) l cs
        (some created.tree) = .ok { leafIndex := l, privateKeys := keys } ∧
      (∀ m' ∈ m :: upper, keys.get (pathNode own m') ≠ none) ∧
      ∀ n key, keys.get n = some key → ∃ m' ∈ m :: upper, ∃ q, n = pathNode own m' ∧
        slot created.tree (m' + 1) (own / 2 ^ (m' + 1)) = some (.parent q) ∧
        PrivateKeyOf cs.hpke key q.hpkePublicKey := by
  have hentries : (((sent :: above).map fun p => (p.nodeIndex, p.secret)).map Prod.fst).Nodup := by
    rw [List.map_map]
    exact hs.distinct.sublist (hs.suffix.sublist.map PathSecret.nodeIndex)
  have hget {n : ℤ} {secret : Bytes} : Record.get (.ofEntries ((sent :: above).map fun p =>
      (p.nodeIndex, p.secret))) n = some secret ↔
      ∃ p ∈ sent :: above, p.nodeIndex = n ∧ p.secret = secret := by
    rw [Record.get_ofEntries_eq_some hentries, List.mem_map]
    simp only [Prod.mk.injEq]
  obtain ⟨path, hpath⟩ : ∃ path, toPrivateKeyPath (.ofEntries ((sent :: above).map fun p =>
      (p.nodeIndex, p.secret))) l cs (some created.tree) = .ok path := by
    obtain ⟨asArray, hmap⟩ := mapM_returns (f := toPrivateKey cs (some created.tree))
      (l := Record.entries (.ofEntries ((sent :: above).map fun p => (p.nodeIndex, p.secret))))
      fun entry hentry => by
        obtain ⟨p, hp, hindex, hsecret⟩ := hget.mp (Record.get_eq_some.mpr hentry)
        obtain ⟨_, _, _, derived, -, -, -, -, -, -, hkey⟩ := hs.toPrivateKey_eq hsender hp
        exact ⟨_, by rw [← hkey, hindex, hsecret]⟩
    exact ⟨_, by rw [toPrivateKeyPath, hmap]; rfl⟩
  obtain ⟨hindex, hkeys⟩ := toPrivateKeyPath_get hpath
  refine ⟨path.privateKeys, by rw [hpath, ← hindex], fun m' hm' => ?_, fun n key hn => ?_⟩
  · obtain ⟨p, hp, hplace, -⟩ := exists_mem_of_forall₂ hs.nodes.flip hm'
    obtain ⟨_, _, _, derived, -, -, -, -, -, -, hkey⟩ := hs.toPrivateKey_eq hsender hp
    rw [← hplace, (hkeys _ derived).mpr ⟨p.secret, hget.mpr ⟨p, hp, rfl, rfl⟩, hkey⟩]
    exact Option.some_ne_none _
  · obtain ⟨secret, hsecret, hkey⟩ := (hkeys n key).mp hn
    obtain ⟨p, hp, rfl, rfl⟩ := hget.mp hsecret
    obtain ⟨m', keys, q, derived, hm', hplace, hq, hpair, hpublic, hnone, hverified⟩ :=
      hs.toPrivateKey_eq hsender hp
    obtain ⟨-, rfl⟩ := Prod.mk.inj (Except.ok.inj (hkey.symm.trans hverified))
    refine ⟨m', hm', q, hplace, hq, ?_⟩
    rw [hpublic]
    exact toPrivateKey_privateKeyOf hpairs hpair hnone

/-- The secret of the common ancestor gives the new member the keys of the nodes above it, and
there are no others it is to have. -/
theorem joinerPrivatePath_path (hlen : t.length = size d) (hd : d ≤ 31) (ht : Typed t)
    (hpairs : DerivesKeyPairs cs.hpke) (hnew : NewLeaf t i)
    (hleaf : slot t 0 i = some (.leaf leaf)) (hne : i ≠ own)
    (hprivate : PrivateKeyOf cs.hpke privateKey leaf.hpkePublicKey)
    (h : createUpdatePath t own gc cs key coins exclude patch = .ok created)
    (hsender : toPrivateKeyPath (pathToPathSecrets created.pathSecrets) own cs none = .ok sender)
    (hnode : firstCommonAncestor created.tree i own = .ok nodeIndex) :
    ∃ keys, joinerPrivatePath cs created.tree i own privateKey
      ((created.pathSecrets.find? fun ps => ps.nodeIndex = nodeIndex).map PathSecret.secret) =
        .ok { leafIndex := i, privateKeys := keys } ∧ HoldsKeys cs.hpke created.tree i keys := by
  obtain ⟨hw, -, -⟩ := createUpdatePath_spec hlen hd h
  obtain ⟨m, upper, sent, above, hs⟩ := exists_secretsAbove hlen hd h hne (by simp [hleaf])
  obtain rfl := Except.ok.inj (hnode.symm.trans hs.ancestor)
  have hbranch {m' : ℕ} : i / 2 ^ (m' + 1) = own / 2 ^ (m' + 1) ↔ m ≤ m' := branch_iff hs.branch
  have hown : slot created.tree 0 i = some (.leaf leaf) := by
    rw [hw.other 0 i (by simp [hne]) (by simp), hleaf]
  obtain ⟨keys, hkeys, hall, honly⟩ := hs.exists_keys hpairs hsender i
  obtain ⟨pruned, hpruned, hget⟩ : ∃ pruned : Record ℤ Bytes,
      pruneBlankedNodes (mergePrivateKeyPaths { leafIndex := i, privateKeys := keys }
        { leafIndex := i, privateKeys := Record.empty.set (leafToNodeIndex i) privateKey })
        created.tree = { leafIndex := i, privateKeys := pruned } ∧
      ∀ n, pruned.get n = if (nodeAt created.tree n).isSome then
        if n = coord 0 i then some privateKey else keys.get n else none := by
    refine ⟨(keys.set (leafToNodeIndex i) privateKey).filterKeys fun nodeIndex =>
      (nodeAt created.tree nodeIndex).isSome, rfl, fun n => ?_⟩
    rw [Record.get_filterKeys, Record.get_set, leafToNodeIndex_eq]
  refine ⟨pruned, ?_, ?_, ?_⟩
  · simp only [joinerPrivatePath, hs.ancestor, ok_bind, hs.sent, Option.map_some,
      deriveWelcomePrivateKeyPath, hs.along, hkeys, hpruned]
    rfl
  · intro k node hslot hmerged
    rw [hget, nodeAt_coord, hslot, Option.isSome_some, if_pos rfl]
    split_ifs with heq
    · exact Option.some_ne_none _
    · cases k with
      | zero => simp at heq
      | succ k =>
        -- what the committer did not write still lists the leaf
        by_cases hlevel : k ∈ filteredLevels t d own ∧ m ≤ k
        · rw [hbranch.mpr hlevel.2]
          exact hall k ((hs.levels k).mpr hlevel)
        · rw [hw.other (k + 1) _ (by simp) fun m' hm' heq => ?_] at hslot
          · cases hnew.level ht hslot hmerged
          · obtain ⟨hk, hplace⟩ := heq
            obtain rfl := Nat.succ.inj hk
            exact hlevel ⟨hm', hbranch.mp hplace⟩
  · intro n key' hn
    rw [hget] at hn
    split_ifs at hn with hsome heq
    · obtain rfl := Option.some.inj hn
      exact ⟨0, .leaf leaf, by simp [heq], by simp [hown], List.not_mem_nil, hprivate⟩
    · obtain ⟨m', hm', q, rfl, hq, hkey⟩ := honly n key' hn
      obtain ⟨hlevel, hle⟩ := (hs.levels m').mp hm'
      obtain ⟨p, hp, hunmerged, -⟩ := hw.node m' hlevel
      obtain rfl := Node.parent.inj (Option.some.inj (hq.symm.trans hp))
      refine ⟨m' + 1, .parent q, ?_, ?_, ?_, hkey⟩
      · rw [pathNode, hbranch.mpr hle]
      · rw [hbranch.mpr hle, hq]
      · simp [Node.unmergedLeaves, hunmerged]

end

end

/-! ## The committed tree -/

section
variable {cs : CiphersuiteImpl} {state : ClientState cs.signature} {applied : ApplyProposalsResult}
  {patch : Option (ResolvedLeafNodePatch cs.signature)} {coins : PathCoins} {path : CommitPath cs}

/-- A commit goes without a path, or with one over the tree its proposals led to. -/
theorem createCommitPath_cases (h : createCommitPath cs state applied patch coins = .ok path) :
    (applied.needsUpdatePath = false ∧ path = {
      tree := applied.tree
      updatePath := none
      pathSecrets := []
      newPrivateKey := none
      pathTreeHash := none }) ∨
    ∃ patch' created, createUpdatePath applied.tree state.privatePath.leafIndex
        (groupContextWithExtensions state.groupContext applied.additionalResult) cs
        state.signaturePrivateKey coins
        ((addedLeafNodes applied.additionalResult).map fun l => leafToNodeIndex l.1) patch' = .ok created ∧
      path = created.commitPath := by
  unfold createCommitPath at h
  dsimp only at h
  split at h
  · split_ifs at h with hneeds
    · obtain ⟨created, hcreate, h⟩ := bind_eq_ok.mp h
      exact .inr ⟨_, created, hcreate, (Except.ok.inj h).symm⟩
    · obtain rfl := Except.ok.inj h
      exact .inl ⟨Bool.eq_false_iff.mpr hneeds, rfl⟩
  · obtain ⟨created, hcreate, h⟩ := bind_eq_ok.mp h
    obtain ⟨_, -, h⟩ := bind_eq_ok.mp h
    obtain ⟨_, -, h⟩ := bind_eq_ok.mp h
    exact .inr ⟨_, created, hcreate, (Except.ok.inj h).symm⟩

/-- A leaf of the committed tree is one of the applied tree, or the committer's new one. -/
theorem createCommitPath_leaf (ht : Reachable applied.tree)
    (h : createCommitPath cs state applied patch coins = .ok path) :
    Reachable path.tree ∧ ∀ j leaf, slot path.tree 0 j = some (.leaf leaf) →
      slot applied.tree 0 j = some (.leaf leaf) ∨
        j = state.privatePath.leafIndex ∧ ∃ parentHash, leaf.info = .commit parentHash := by
  obtain ⟨-, rfl⟩ | ⟨patch', created, hcreate, rfl⟩ := createCommitPath_cases h
  · exact ⟨ht, fun _ _ hleaf => .inl hleaf⟩
  · obtain ⟨-, d, hg⟩ := ht.invariant
    obtain ⟨hw, -, -⟩ := createUpdatePath_spec hg.length hg.depth hcreate
    refine ⟨ht.createUpdatePath hcreate, fun j leaf hleaf => ?_⟩
    change slot created.tree 0 j = _ at hleaf
    by_cases hj : j = state.privatePath.leafIndex
    · rw [hj, hw.leaf] at hleaf
      obtain rfl := Node.leaf.inj (Option.some.inj hleaf)
      exact .inr ⟨hj, _, created.updatePath.leafNode.source⟩
    · rw [hw.other 0 j (by simp [hj]) (by simp)] at hleaf
      exact .inl hleaf

variable {i : ℕ} {keyPackage : KeyPackage} {start : RatchetTree} {privatePath : PrivateKeyPath}
  {privateKey treeHash : Bytes} {nodeIndex : ℤ}

/-- What the leaf of an added key package is in the committed tree. -/
theorem NewLeaves.committed (hnew : NewLeaves start (applied.tree, addedLeafNodes applied.additionalResult))
    (hown : slot start 0 state.privatePath.leafIndex ≠ none)
    (hmem : (i, keyPackage) ∈ addedLeafNodes applied.additionalResult)
    (h : createCommitPath cs state applied patch coins = .ok path) :
    i ≠ state.privatePath.leafIndex ∧ slot path.tree 0 i = some (.leaf keyPackage.leafNode.leaf) := by
  have hne : i ≠ state.privatePath.leafIndex := by
    rintro rfl
    exact hown (hnew.blank _ hmem)
  refine ⟨hne, ?_⟩
  have hleaf := hnew.leaf _ hmem
  obtain ⟨-, rfl⟩ | ⟨patch', created, hcreate, rfl⟩ := createCommitPath_cases h
  · exact hleaf
  · obtain ⟨-, d, hg⟩ := hnew.tree.invariant
    obtain ⟨hw, -, -⟩ := createUpdatePath_spec hg.length hg.depth hcreate
    change slot created.tree 0 i = _
    rw [hw.other 0 i (by simp [hne]) (by simp)]
    exact hleaf

/-- The joiner's leaf is told from the others by its key, from the committer's by its source. -/
theorem joinerLeaf_committed (hnew : NewLeaves start (applied.tree, addedLeafNodes applied.additionalResult))
    (hown : slot start 0 state.privatePath.leafIndex ≠ none) (hdistinct : DistinctKeys applied.tree)
    (hmem : (i, keyPackage) ∈ addedLeafNodes applied.additionalResult)
    (h : createCommitPath cs state applied patch coins = .ok path) (hwidth : HashedWidth path.tree)
    (hhash : treeHashRoot path.tree cs.hash = .ok treeHash) :
    joinerLeaf path.tree keyPackage.leafNode.leaf = .ok i := by
  obtain ⟨hreachable, hleaves⟩ := createCommitPath_leaf hnew.tree h
  obtain ⟨-, hleaf⟩ := hnew.committed hown hmem h
  refine joinerLeaf_eq hwidth hreachable.invariant.1.typed hhash hleaf
    fun j other x hother hx hy => ?_
  have hplace {n : ℕ} {l : LeafNode} (hl : slot applied.tree 0 n = some (.leaf l)) :
      NodeAt applied.tree (InOrder.index 0 n) (.leaf l) := by
    rwa [slot_eq_getElem?, Option.join_eq_some_iff] at hl
  rcases hleaves j other hother with hold | ⟨-, parentHash, hcommit⟩
  · have hindex := hdistinct.hpke _ _ _ _ (hplace hold) (hplace (hnew.leaf _ hmem))
      (encodeLeafNode_hpkePublicKey hx hy)
    exact (InOrder.index_inj hindex).2
  · have heq := encodeLeafNode_parentHash hx hy
    rw [hcommit, keyPackage.leafNode.source] at heq
    cases heq

/-- The path secret of the Welcome gives the joiner the keys of its place. -/
theorem joinerPrivatePath_committed
    (hnew : NewLeaves start (applied.tree, addedLeafNodes applied.additionalResult))
    (hown : slot start 0 state.privatePath.leafIndex ≠ none)
    (hmem : (i, keyPackage) ∈ addedLeafNodes applied.additionalResult)
    (h : createCommitPath cs state applied patch coins = .ok path)
    (hsender : committerPrivatePath state.privatePath path = .ok privatePath)
    (hpairs : DerivesKeyPairs cs.hpke)
    (hprivate : PrivateKeyOf cs.hpke privateKey keyPackage.leafNode.leaf.hpkePublicKey)
    (hnode : firstCommonAncestor path.tree i state.privatePath.leafIndex = .ok nodeIndex) :
    ∃ keys, joinerPrivatePath cs path.tree i state.privatePath.leafIndex privateKey
        ((path.pathSecrets.find? fun ps => ps.nodeIndex = nodeIndex).map PathSecret.secret) =
          .ok { leafIndex := i, privateKeys := keys } ∧
      HoldsKeys cs.hpke path.tree i keys := by
  obtain ⟨hne, -⟩ := hnew.committed hown hmem h
  obtain ⟨hinvariant, d, hg⟩ := hnew.tree.invariant
  have hunmerged : NewLeaf applied.tree i := hnew.unmerged _ hmem
  have hleaf : slot applied.tree 0 i = some (.leaf keyPackage.leafNode.leaf) := hnew.leaf _ hmem
  obtain ⟨-, rfl⟩ | ⟨patch', created, hcreate, rfl⟩ := createCommitPath_cases h
  · exact joinerPrivatePath_noPath hg.length hg.depth hinvariant.typed hunmerged hleaf hne hprivate hnode
  · obtain ⟨_, -, hsender⟩ := bind_eq_ok.mp hsender
    obtain ⟨pathKeys, hpathKeys, -⟩ := bind_eq_ok.mp hsender
    exact joinerPrivatePath_path hg.length hg.depth hinvariant.typed hpairs hunmerged hleaf hne hprivate
      hcreate hpathKeys hnode

end

/-! ## Entering the epoch -/

/-- The suite's parts fit together: what is sealed is opened, the halves of a key pair belong to
each other, and a MAC is verified. -/
structure FittingSuite (cs : CiphersuiteImpl) : Prop where
  aead : AeadOpens cs.hpke
  keyPairs : DerivesKeyPairs cs.hpke
  mac : ∀ key data, cs.hash.verifyMac key (cs.hash.mac key data) data = true

/-- The private keys of a key package. -/
structure OwnsKeyPackage (cs : CiphersuiteImpl) (privateKeys : PrivateKeyPackage cs.signature)
    (keyPackage : KeyPackage) : Prop where
  initKey : PrivateKeyOf cs.hpke privateKeys.initPrivateKey keyPackage.initKey
  leafKey : PrivateKeyOf cs.hpke privateKeys.hpkePrivateKey keyPackage.leafNode.leaf.hpkePublicKey
  signatureKey : cs.signature.Matches privateKeys.signaturePrivateKey
    keyPackage.leafNode.leaf.signaturePublicKey

/-- The proposals a client's next commit applies: those it has pending and those it is given. -/
def committedProposals (cs : CiphersuiteImpl) (state : ClientState cs.signature)
    (pskIndex : PskIndex) (options : CreateCommitOptions cs.signature) (currentTime : ℤ) :
    Except MlsError ApplyProposalsResult := do
  let pendingRefs ← filterPendingProposals cs state options.extraProposals currentTime
  applyProposals cs state (bundleAllProposals pendingRefs options.extraProposals)
    (some state.privatePath.leafIndex) pskIndex true none .member currentTime

/-- What a join checks of the group it has opened the Welcome of. -/
structure JoinChecks (cs : CiphersuiteImpl) (opened : OpenedWelcome) (tree : RatchetTree)
    (keyPackage : KeyPackage) (options : JoinOptions cs.signature) (currentTime : ℤ) : Prop where
  prior : options.expectedResumption ≠ none → options.resumingFromState ≠ none
  welcome : validateWelcome opened keyPackage options = .ok ()
  given : joinedTree opened.groupInfo options.ratchetTree = .ok tree
  validated : validateJoinedTree cs opened.groupInfo tree keyPackage options.clientConfig
    currentTime = .ok ()
  branch : validateBranchMembers options.resumingFromState
    (resumptionPsksRequiringPriorState opened.pskIds) tree
    options.clientConfig.keyPackageEqualityConfig = none

/-- What the members of a state's epoch share. -/
def ClientState.sharedEpoch {s : Signature} (state : ClientState s) : SharedEpoch where
  groupContext := state.groupContext
  ratchetTree := state.ratchetTree
  senderDataSecret := state.keySchedule.senderDataSecret
  secretTree := state.secretTree

section
variable {cs : CiphersuiteImpl} {opened : OpenedWelcome} {tree : RatchetTree} {keyPackage : KeyPackage}
  {privateKeys : PrivateKeyPackage cs.signature} {i : ℕ} {currentTime : ℤ}

theorem initializeEpoch_eq_ok {initSecret commitSecret pskSecret : Bytes} {gc : GroupContext}
    {kdf : Kdf} {epochSecrets : EpochSecrets}
    (h : initializeEpoch initSecret commitSecret gc pskSecret kdf = .ok epochSecrets) :
    extractWelcomeSecret epochSecrets.joinerSecret pskSecret kdf = .ok epochSecrets.welcomeSecret ∧
      deriveKeySchedule epochSecrets.joinerSecret pskSecret gc kdf =
        .ok epochSecrets.toDerivedKeySchedule := by
  obtain ⟨joinerSecret, -, h⟩ := bind_eq_ok.mp h
  obtain ⟨welcomeSecret, hwelcome, h⟩ := bind_eq_ok.mp h
  obtain ⟨derived, hderived, h⟩ := bind_eq_ok.mp h
  rw [← Except.ok.inj h]
  exact ⟨hwelcome, hderived⟩

theorem verifyGroupInfoConfirmationTag_eq {gi : GroupInfo} {joinerSecret pskSecret : Bytes}
    {derived : DerivedKeySchedule}
    (h : deriveKeySchedule joinerSecret pskSecret gi.groupContext cs.kdf = .ok derived) :
    verifyGroupInfoConfirmationTag gi joinerSecret pskSecret cs =
      .ok (cs.hash.verifyMac derived.keySchedule.confirmationKey gi.confirmationTag
        gi.groupContext.confirmedTranscriptHash) := by
  obtain ⟨epochSecret, hepoch, hderived⟩ := bind_eq_ok.mp h
  rw [verifyGroupInfoConfirmationTag, hepoch, ok_bind, deriveEpochKeys_confirm hderived]
  rfl

/-- A join that passes its checks enters the epoch of what it opened. -/
theorem joinGroup_enters {welcome : Welcome} {pskSearch : PskIndex} {options : JoinOptions cs.signature}
    {privatePath : PrivateKeyPath} {derived : DerivedKeySchedule} {secretTree : SecretTree}
    (hmac : ∀ key data, cs.hash.verifyMac key (cs.hash.mac key data) data = true)
    (hopened : openWelcome cs welcome keyPackage privateKeys.initPrivateKey pskSearch = .ok opened)
    (hchecks : JoinChecks cs opened tree keyPackage options currentTime)
    (hleaf : joinerLeaf tree keyPackage.leafNode.leaf = .ok i)
    (hpath : joinerPrivatePath cs tree i opened.groupInfo.signer privateKeys.hpkePrivateKey
      opened.groupSecrets.pathSecret = .ok privatePath)
    (hderived : deriveKeySchedule opened.groupSecrets.joinerSecret opened.pskSecret
      opened.groupInfo.groupContext cs.kdf = .ok derived)
    (htag : opened.groupInfo.confirmationTag = createConfirmationTag derived.keySchedule.confirmationKey
      opened.groupInfo.groupContext.confirmedTranscriptHash cs.hash)
    (hsecrets : createSecretTree (leafWidth tree.length) derived.encryptionSecret cs.kdf =
      .ok secretTree) :
    ∃ joined, joinGroup cs welcome keyPackage privateKeys pskSearch options currentTime = .ok joined ∧
      joined.groupContext = opened.groupInfo.groupContext ∧ joined.ratchetTree = tree ∧
      joined.privatePath = privatePath ∧ joined.signaturePrivateKey = privateKeys.signaturePrivateKey ∧
      joined.confirmationTag = opened.groupInfo.confirmationTag ∧
      joined.keySchedule = derived.keySchedule ∧ joined.secretTree = secretTree := by
  have hverified : cs.hash.verifyMac derived.keySchedule.confirmationKey
      opened.groupInfo.confirmationTag opened.groupInfo.groupContext.confirmedTranscriptHash = true := by
    rw [htag]
    exact hmac _ _
  obtain ⟨result, henter, hresult⟩ : ∃ result,
      enterGroup cs opened tree keyPackage privateKeys options.clientConfig = .ok result ∧
      result.state.groupContext = opened.groupInfo.groupContext ∧ result.state.ratchetTree = tree ∧
      result.state.privatePath = privatePath ∧
      result.state.signaturePrivateKey = privateKeys.signaturePrivateKey ∧
      result.state.confirmationTag = opened.groupInfo.confirmationTag ∧
      result.state.keySchedule = derived.keySchedule ∧ result.state.secretTree = secretTree := by
    simp only [enterGroup, hleaf, ok_bind, hpath, hderived, verifyGroupInfoConfirmationTag_eq hderived,
      hverified, Bool.not_true, Bool.false_eq_true, if_false, hsecrets]
    exact ⟨_, rfl, rfl, rfl, rfl, rfl, rfl, rfl, rfl⟩
  have hjoin : joinGroupWithGroupInfo cs welcome keyPackage privateKeys pskSearch options currentTime =
      .ok result := by
    unfold joinGroupWithGroupInfo
    split
    · rename_i expected hexpected hnone
      exact absurd hnone (hchecks.prior (by simp [hexpected]))
    · simp only [hopened, ok_bind, hchecks.welcome, hchecks.given, hchecks.validated, hchecks.branch,
        throwIfDefined, henter]
  exact ⟨result.state, by rw [joinGroup, hjoin]; rfl, hresult⟩

end

/-! ## What the Welcome says of the group -/

section
variable {cs : CiphersuiteImpl} {tree : RatchetTree} {extensions sent : List Extension}
  {ratchetTreeExtension : Bool} {groupInfo : GroupInfo}

theorem createGroupInfo_eq_ok {gc : GroupContext} {tag coins : Bytes} {signer : ℕ} {s : Signature}
    {privateKey : s.SignatureSecretKey}
    (h : createGroupInfo gc tag signer extensions s coins privateKey = .ok groupInfo) :
    groupInfo.groupContext = gc ∧ groupInfo.confirmationTag = tag ∧ groupInfo.signer = signer ∧
      groupInfo.extensions = extensions := by
  obtain ⟨_, -, h⟩ := bind_eq_ok.mp h
  obtain ⟨_, -, h⟩ := bind_eq_ok.mp h
  rw [← Except.ok.inj h]
  exact ⟨rfl, rfl, rfl, rfl⟩

theorem withRatchetTree_wellFormed (hextensions : ∀ e ∈ extensions, e.WellFormed)
    (h : withRatchetTree ratchetTreeExtension tree extensions = .ok sent) :
    ∀ e ∈ sent, e.WellFormed := by
  cases ratchetTreeExtension with
  | false =>
    rw [← Except.ok.inj h]
    exact hextensions
  | true =>
    obtain ⟨encoded, -, h⟩ := bind_eq_ok.mp h
    rw [← Except.ok.inj h]
    intro e he
    rcases List.mem_append.mp he with he | he
    · exact hextensions e he
    · rw [List.mem_singleton.mp he]
      trivial

/-- A tree that is sent along is the one that is joined, whatever the joiner was handed. -/
theorem joinedTree_sent (ht : Reachable tree) (hnodes : ∀ n, some n ∈ tree → WireRepresentable n)
    (hnone : findExtension extensions .ratchet_tree = none)
    (h : withRatchetTree true tree extensions = .ok sent) (hsent : groupInfo.extensions = sent)
    (handed : Option RatchetTree) : joinedTree groupInfo handed = .ok tree := by
  obtain ⟨encoded, hencoded, h⟩ := bind_eq_ok.mp h
  have hfind : findExtension groupInfo.extensions .ratchet_tree =
      some { extensionType := .default .ratchet_tree, extensionData := encoded } := by
    rw [hsent, ← Except.ok.inj h, findExtension, List.find?_append,
      show extensions.find? (fun e => e.extensionType = .default .ratchet_tree) = none from hnone]
    rfl
  simp only [joinedTree, ratchetTreeFromExtension, hfind, decodeRatchetTree_encoded ht hnodes hencoded,
    ok_bind]
  rfl

end

/-! ## Welcomed members -/

section
variable {cs : CiphersuiteImpl} {state : ClientState cs.signature} {pskIndex pskSearch : PskIndex}
  {options : CreateCommitOptions cs.signature} {coins : CommitCoins} {currentTime : ℤ}
  {result : CreateCommitResult cs.signature} {applied : ApplyProposalsResult} {i : ℕ}
  {keyPackage : KeyPackage} {privateKeys : PrivateKeyPackage cs.signature}

/-- Whoever is added by a commit of a member can join with its Welcome. What it opens is of the
committer's new epoch; and where the checks of the join do not object, it enters that epoch at
its own leaf, in the same group, with the same keys and message secrets, and with the private
keys of exactly the nodes that a member of its place is to have. -/
theorem welcomed_member_joins (hcs : FittingSuite cs) (htree : Reachable state.ratchetTree)
    (hdistinct : DistinctKeys state.ratchetTree)
    (hown : slot state.ratchetTree 0 state.privatePath.leafIndex ≠ none)
    (happlied : committedProposals cs state pskIndex options currentTime = .ok applied)
    (hadded : AddedAt cs (addedLeafNodes applied.additionalResult) i keyPackage)
    (howns : OwnsKeyPackage cs privateKeys keyPackage)
    (hfound : ∀ id key, pskIndex.findPsk id = some key → pskSearch.findPsk id = some key)
    (hids : ∀ id ∈ applied.pskIds, id.WellFormed)
    (hextensions : ∀ e ∈ options.groupInfoExtensions, e.WellFormed)
    (hcontext : result.newState.groupContext.WellFormed)
    (h : createCommit cs state pskIndex options coins currentTime = .ok result) :
    ∃ welcome opened, result.welcome = some welcome ∧
      openWelcome cs welcome keyPackage privateKeys.initPrivateKey pskSearch = .ok opened ∧
      opened.groupInfo.groupContext = result.newState.groupContext ∧
      opened.groupInfo.signer = state.privatePath.leafIndex ∧
      (options.ratchetTreeExtension = true →
        findExtension options.groupInfoExtensions .ratchet_tree = none →
        (∀ n, some n ∈ result.newState.ratchetTree → WireRepresentable n) →
        ∀ handed, joinedTree opened.groupInfo handed = .ok result.newState.ratchetTree) ∧
      ∀ (joinOptions : JoinOptions cs.signature) (joinTime : ℤ),
        JoinChecks cs opened result.newState.ratchetTree keyPackage joinOptions joinTime →
        ∃ joined, joinGroup cs welcome keyPackage privateKeys pskSearch joinOptions joinTime =
            .ok joined ∧
          SharesEpoch result.newState joined ∧ result.newState.sharedEpoch.Enters i joined ∧
          HoldsKeys cs.hpke joined.ratchetTree i joined.privatePath.privateKeys := by
  obtain ⟨p, hbundles, hp, hannounced⟩ := createCommit_announces h
  obtain ⟨pendingRefs, hpending, hproposals⟩ := hbundles.proposals
  obtain rfl : p.applied = applied := by
    rw [committedProposals, hpending, ok_bind, ← hproposals, hp.applied] at happlied
    exact Except.ok.inj happlied
  obtain ⟨extensions, hwith, hinfo⟩ := hannounced.groupInfo
  obtain ⟨hgc, htag, hsigner, hsent⟩ := createGroupInfo_eq_ok hinfo
  obtain ⟨hwelcomeSecret, hderived⟩ := initializeEpoch_eq_ok hp.epochSecrets
  obtain ⟨start, hnew, hstart⟩ := applyProposals_newLeaves htree hown hp.applied hadded.mem
  obtain ⟨hreachable, -⟩ := createCommitPath_leaf hnew.tree hp.path
  obtain ⟨_, _, hmember⟩ := applyProposals_adds hp.applied hadded.mem
  obtain ⟨-, hpsk⟩ := accumulatePskSecret_found hfound (applyMemberProposals_psk hmember)
  obtain ⟨welcome, hwelcome⟩ := createWelcome_some hadded hp.welcome
  have hwire : p.groupInfo.WellFormed :=
    ⟨hgc ▸ hcontext, hsent ▸ withRatchetTree_wellFormed hextensions hwith⟩
  obtain ⟨nodeIndex, hnode, hopened⟩ := openWelcome_eq (w := {
      tree := p.path.tree
      committerLeafIndex := state.privatePath.leafIndex
      pathSecrets := p.path.pathSecrets
      encryptedGroupInfo := []
      joinerSecret := p.epochSecrets.joinerSecret
      pskIds := p.applied.pskIds }) hcs.aead hadded howns.initKey hwire hids hpsk hwelcomeSecret
    (hp.welcome.trans (congrArg Except.ok hwelcome))
  refine ⟨welcome, _, hwelcome, hopened, hgc, hsigner, ?_, ?_⟩
  · intro hextension hnone hnodes handed
    rw [hp.ratchetTree] at hnodes ⊢
    rw [hextension] at hwith
    exact joinedTree_sent hreachable hnodes hnone hwith hsent handed
  · intro joinOptions joinTime hchecks
    rw [hp.ratchetTree] at hchecks
    obtain ⟨-, d, hg⟩ := hreachable.invariant
    obtain ⟨fdp, hfdp, -⟩ := bind_eq_ok.mp hnode
    have hwidth : HashedWidth p.path.tree :=
      ⟨d, (filteredDirectPathAndCopathResolution_eq_ok hg.length hg.depth hfdp).1, hg.length⟩
    obtain ⟨allProposals, -, hsteps⟩ := applyProposals_steps hp.applied
    have hleaf := joinerLeaf_committed hnew hstart (hdistinct.steps hsteps) hadded.mem hp.path hwidth
      (commitTreeHash_eq_ok hp.path hannounced.treeHash)
    obtain ⟨keys, hkeys, hholds⟩ := joinerPrivatePath_committed hnew hstart hadded.mem hp.path
      hp.privatePath hcs.keyPairs howns.leafKey hnode
    obtain ⟨joined, hjoined, hcontext', htree', hpath', hsignature, htag', hschedule, hsecrets⟩ :=
      joinGroup_enters hcs.mac hopened hchecks hleaf (by rw [hsigner]; exact hkeys)
        (by rw [hgc]; exact hderived) (by rw [htag, hgc, hannounced.confirmationTag]) hp.secretTree
    refine ⟨joined, hjoined, ?_, ?_, ?_⟩
    · refine ⟨by rw [hcontext', hgc], by rw [htree', hp.ratchetTree], ?_, by rw [htag', htag]⟩
      rw [hschedule, hp.keySchedule]
    · refine ⟨by rw [hcontext', hgc]; rfl, by rw [htree']; exact hp.ratchetTree.symm, ?_, hsecrets,
        by rw [hpath'], keyPackage.leafNode.leaf, ?_, hsignature ▸ howns.signatureKey⟩
      · change _ = result.newState.keySchedule.senderDataSecret
        rw [hschedule, hp.keySchedule]
      · change leafAt result.newState.ratchetTree i = _
        rw [hp.ratchetTree, leafAt_eq_some]
        exact (hnew.committed hstart hadded.mem hp.path).2
    · rw [htree', hpath']
      exact hholds

end

/-! ### The second member of a group -/

/-- The first member's commit, which sends the tree along. -/
def welcomingOptions (keyPackage : KeyPackage) : CreateCommitOptions plainSuite.signature where
  extraProposals := [.add keyPackage]
  ratchetTreeExtension := true

def welcomedOptions : JoinOptions plainSuite.signature where
  clientConfig := plainConfig

structure Welcoming where
  state : ClientState plainSuite.signature
  keyPackage : KeyPackage
  applied : ApplyProposalsResult
  result : CreateCommitResult plainSuite.signature
  welcome : Welcome
  opened : OpenedWelcome
  tree : RatchetTree

def welcoming : Except MlsError Welcoming := do
  let first ← plainKeyPackage 1
  let keyPackage ← plainKeyPackage 2
  let state ← createGroup plainSuite [] first (plainPrivateKeys 1) [] plainConfig []
  let applied ← committedProposals plainSuite state emptyPskIndex (welcomingOptions keyPackage) 0
  let result ← createCommit plainSuite state emptyPskIndex (welcomingOptions keyPackage)
    (plainCoins []) 0
  match result.welcome with
  | none => throw (usageError "No member was added")
  | some welcome => do
    let opened ← openWelcome plainSuite welcome keyPackage [2, 2] emptyPskIndex
    validateWelcome opened keyPackage welcomedOptions
    let tree ← joinedTree opened.groupInfo none
    validateJoinedTree plainSuite opened.groupInfo tree keyPackage plainConfig 0
    pure ⟨state, keyPackage, applied, result, welcome, opened, tree⟩

/-- What of the run is left to be seen by looking. -/
def Welcoming.expected (w : Welcoming) : Bool :=
  (w.state.ratchetTree.length == 1) && (w.state.privatePath.leafIndex == 0) &&
    decide (DistinctKeys w.state.ratchetTree) &&
    decide (addedLeafNodes w.applied.additionalResult = [(1, w.keyPackage)]) &&
    decide (w.applied.pskIds = []) && decide (w.keyPackage.initKey = [2, 2]) &&
    decide (w.keyPackage.leafNode.leaf.hpkePublicKey = [2]) &&
    decide (w.keyPackage.leafNode.leaf.signaturePublicKey = [2]) &&
    decide (w.result.newState.groupContext.cipherSuite = plainSuite.name) &&
    decide (w.result.newState.groupContext.epoch = 1) &&
    decide (w.result.newState.groupContext.extensions = []) &&
    decide (w.tree = w.result.newState.ratchetTree)

theorem plainSuite_privateKeyOf (key : Bytes) : PrivateKeyOf plainSuite.hpke key key := by
  intro publicKey coins plaintext info sealed hkey hseal
  obtain rfl := Except.ok.inj hkey
  obtain rfl := Except.ok.inj hseal
  exact ⟨key, rfl, by simp [plainSuite, pure, Except.pure]⟩

theorem plainSuite_matches (key : Bytes) : plainSuite.signature.Matches key key := by
  intro coins message signature h
  obtain rfl := Except.ok.inj h
  exact beq_self_eq_true _

theorem plainSuite_fitting : FittingSuite plainSuite where
  aead key nonce aad plaintext ciphertext h := by
    obtain rfl := Except.ok.inj h
    simp [plainSuite, pure, Except.pure]
  keyPairs secret privateKey publicKey privateBytes publicBytes h hprivate hpublic := by
    obtain ⟨rfl, rfl⟩ := Prod.mk.inj (Except.ok.inj h)
    obtain rfl := Except.ok.inj hprivate
    obtain rfl := Except.ok.inj hpublic
    exact plainSuite_privateKeyOf _
  mac key data := by simp [plainSuite, plainHash]

theorem createGroup_reachable {cs : CiphersuiteImpl} {groupId epochSecret : Bytes}
    {keyPackage : KeyPackage} {privateKeys : PrivateKeyPackage cs.signature}
    {extensions : List Extension} {clientConfig : ClientConfig} {state : ClientState cs.signature}
    (h : createGroup cs groupId keyPackage privateKeys extensions clientConfig epochSecret =
      .ok state) : Reachable state.ratchetTree ∧ slot state.ratchetTree 0 0 ≠ none := by
  obtain ⟨_, -, h⟩ := bind_eq_ok.mp h
  obtain ⟨_, -, h⟩ := bind_eq_ok.mp h
  obtain ⟨_, -, h⟩ := bind_eq_ok.mp h
  obtain ⟨_, -, h⟩ := bind_eq_ok.mp h
  obtain ⟨_, -, h⟩ := bind_eq_ok.mp h
  rw [← Except.ok.inj h]
  exact ⟨.init _, by simp [slot_singleton]⟩

/-- The second member joins with the Welcome it is sent. -/
theorem second_member_joins : ∃ (w : Welcoming) (joined : ClientState plainSuite.signature),
    joinGroup plainSuite w.welcome w.keyPackage (plainPrivateKeys 2) emptyPskIndex welcomedOptions 0 =
      .ok joined ∧
    SharesEpoch w.result.newState joined ∧ w.result.newState.sharedEpoch.Enters 1 joined ∧
    HoldsKeys plainSuite.hpke joined.ratchetTree 1 joined.privatePath.privateKeys := by
  have heval : welcoming.map Welcoming.expected = .ok true := by decide +kernel
  obtain ⟨w, hrun, hexpected⟩ := map_eq_ok.mp heval
  simp only [Welcoming.expected, Bool.and_eq_true, beq_iff_eq, decide_eq_true_eq] at hexpected
  obtain ⟨⟨⟨⟨⟨⟨⟨⟨⟨⟨⟨-, hown⟩, hdistinct⟩, hadded⟩, hids⟩, hinit⟩, hleaf⟩, hsignature⟩, hsuite⟩,
    hepoch⟩, hextensions⟩, htree⟩ := hexpected
  obtain ⟨first, -, hrun⟩ := bind_eq_ok.mp hrun
  obtain ⟨keyPackage, -, hrun⟩ := bind_eq_ok.mp hrun
  obtain ⟨state, hstate, hrun⟩ := bind_eq_ok.mp hrun
  obtain ⟨applied, happlied, hrun⟩ := bind_eq_ok.mp hrun
  obtain ⟨result, hcommit, hrun⟩ := bind_eq_ok.mp hrun
  cases hsent : result.welcome with
  | none =>
    rw [hsent] at hrun
    cases hrun
  | some welcome =>
    rw [hsent] at hrun
    obtain ⟨opened, hopened, hrun⟩ := bind_eq_ok.mp hrun
    obtain ⟨_, hwelcome, hrun⟩ := bind_eq_ok.mp hrun
    obtain ⟨tree, hgiven, hrun⟩ := bind_eq_ok.mp hrun
    obtain ⟨_, hvalidated, hrun⟩ := bind_eq_ok.mp hrun
    obtain rfl := Except.ok.inj hrun
    dsimp only at hown hdistinct hadded hids hinit hleaf hsignature hsuite hepoch hextensions htree
    obtain ⟨hreachable, hslot⟩ := createGroup_reachable hstate
    have hmem : AddedAt plainSuite (addedLeafNodes applied.additionalResult) 1 keyPackage := by
      rw [hadded]
      exact ⟨List.mem_singleton_self _, fun other hother _ => List.mem_singleton.mp hother⟩
    have howns : OwnsKeyPackage plainSuite (plainPrivateKeys 2) keyPackage := by
      refine ⟨hinit ▸ plainSuite_privateKeyOf _, hleaf ▸ plainSuite_privateKeyOf _, ?_⟩
      rw [hsignature]
      exact plainSuite_matches _
    have hfound (id : PreSharedKeyID) (key : Bytes) (h : emptyPskIndex.findPsk id = some key) :
        emptyPskIndex.findPsk id = some key := h
    have hcontext : result.newState.groupContext.WellFormed :=
      ⟨⟨1, by rw [hsuite]; rfl⟩, by rw [hepoch, IsUint64]; omega, by simp [hextensions]⟩
    obtain ⟨welcome', opened', hsent', hopened', -, -, -, hjoins⟩ :=
      welcomed_member_joins plainSuite_fitting hreachable hdistinct (hown ▸ hslot) happlied hmem howns
        hfound (by simp [hids]) (by simp [welcomingOptions]) hcontext hcommit
    obtain rfl := Option.some.inj (hsent.symm.trans hsent')
    obtain rfl := Except.ok.inj (hopened.symm.trans hopened')
    obtain ⟨joined, hjoined, hshares, henters, hkeys⟩ := hjoins welcomedOptions 0
      ⟨by simp [welcomedOptions], hwelcome, htree ▸ hgiven, htree ▸ hvalidated, rfl⟩
    exact ⟨⟨state, keyPackage, applied, result, welcome, opened, tree⟩, joined, hjoined, hshares, henters, hkeys⟩

end WebcryptoMls
