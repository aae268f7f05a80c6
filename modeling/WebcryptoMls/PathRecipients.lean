import WebcryptoMls.ParentHashChains
import WebcryptoMls.PathAgreement
import WebcryptoMls.ReachableTrees

/-!
# Receiving a path secret

A receiver leaves the sender's path at the lowest node above both leaves. Below
the other child of that node stands its own leaf, so the resolution of the child
holds a node it has the key of: the topmost one on its own path, or its leaf
where that node lists it as unmerged.
-/
namespace WebcryptoMls
open InOrder (index size Below)
open Records

/-! ## The common ancestor -/

section
variable {d i l m : ℕ}

theorem isAncestor_path (hd : d ≤ 30) (hl : l < 2 ^ d) (hm : l / 2 ^ m = sib (i / 2 ^ m)) {m' : ℕ}
    (hm' : m' < d) : isAncestor (coord 0 l) (pathNode i m') (size d) = .ok (decide (m ≤ m')) := by
  rw [pathNode, isAncestor_coord hd (Nat.zero_le d) hl (by omega)]
  simp [branch_iff hm]

theorem firstAncestor_eq {t : RatchetTree} {f : ℕ → PathNode} (hd : d ≤ 30) (hl : l < 2 ^ d)
    (hlen : t.length = size d) (hm : l / 2 ^ m = sib (i / 2 ^ m))
    (hf : ∀ m', (f m').nodeIndex = pathNode i m') {lower upper : List ℕ}
    (hlower : ∀ m' ∈ lower, m' < m) (hmd : m < d) (n : ℕ) :
    firstAncestor t l (((lower ++ m :: upper).map f).zipIdx n) = .ok (f m, n + lower.length) := by
  induction lower generalizing n with
  | nil =>
    simp only [List.nil_append, List.map_cons, List.zipIdx_cons, firstAncestor, hf, hlen,
      leafToNodeIndex_eq, isAncestor_path hd hl hm hmd, ok_bind, le_refl, decide_true, if_true]
    rfl
  | cons m' lower ih =>
    rw [List.forall_mem_cons] at hlower
    simp only [List.cons_append, List.map_cons, List.zipIdx_cons, firstAncestor, hf, hlen,
      leafToNodeIndex_eq, isAncestor_path hd hl hm (hlower.1.trans hmd), ok_bind,
      decide_eq_false (Nat.not_le.mpr hlower.1), Bool.false_eq_true, if_false, ih hlower.2]
    rw [List.length_cons, Nat.add_right_comm, Nat.add_assoc]

end

/-! ## The secrets from a node up -/

theorem forall₂_append_cons {α β : Type} {R : α → β → Prop} {below above : List α} {own : α}
    {l : List β} (h : List.Forall₂ R (below ++ own :: above) l) :
    ∃ b, l[below.length]? = some b ∧ R own b := by
  induction below generalizing l with
  | nil =>
    cases h with
    | cons hown _ => exact ⟨_, rfl, hown⟩
  | cons a below ih =>
    cases h with
    | cons _ h =>
      obtain ⟨b, hb, hown⟩ := ih h
      exact ⟨b, hb, hown⟩

theorem findIdx?_append_cons {α : Type} {p : α → Bool} {lower upper : List α} {a : α}
    (hlower : ∀ b ∈ lower, p b = false) (ha : p a = true) :
    (lower ++ a :: upper).findIdx? p = some lower.length := by
  induction lower with
  | nil => simp [List.findIdx?_cons, ha]
  | cons b lower ih =>
    rw [List.forall_mem_cons] at hlower
    simp [List.findIdx?_cons, hlower.1, ih hlower.2]

theorem chainSecrets_append {kdf : Kdf} {secret : Bytes} {lower upper : List PathNode}
    {node : PathNode} {secrets : List PathSecret}
    (h : chainSecrets kdf secret (lower ++ node :: upper) = .ok secrets) :
    ∃ below own above, secrets = below ++ own :: above ∧ below.length = lower.length ∧
      below.map PathSecret.nodeIndex = lower.map PathNode.nodeIndex ∧
      own.nodeIndex = node.nodeIndex ∧ own.sendTo = node.resolution ∧
      chainSecrets kdf own.secret upper = .ok above := by
  induction lower generalizing secret secrets with
  | nil =>
    obtain ⟨next, -, h⟩ := bind_eq_ok.mp h
    obtain ⟨above, habove, h⟩ := bind_eq_ok.mp h
    exact ⟨[], _, above, (Except.ok.inj h).symm, rfl, rfl, rfl, rfl, habove⟩
  | cons first lower ih =>
    obtain ⟨next, -, h⟩ := bind_eq_ok.mp h
    obtain ⟨rest, hrest, h⟩ := bind_eq_ok.mp h
    obtain ⟨below, own, above, rfl, hlength, hnodes, hindex, hsendTo, habove⟩ := ih hrest
    exact ⟨_ :: below, own, above, (Except.ok.inj h).symm, by simp [hlength], by simp [hnodes],
      hindex, hsendTo, habove⟩

/-- A receiver derives the secrets the sender derived, for nodes of the same indices. -/
theorem secretsAbove_eq {kdf : Kdf} {fdp fdp' : List PathNode} {acc : PathSecretsAlongPath}
    {above : List PathSecret} (hnodes : fdp.map PathNode.nodeIndex = fdp'.map PathNode.nodeIndex)
    (h : chainSecrets kdf acc.lastSecret fdp' = .ok above) :
    secretsAbove kdf fdp acc = .ok
      { pathSecrets := acc.pathSecrets.setAll (above.map fun p => (p.nodeIndex, p.secret))
        lastSecret := (above.map PathSecret.secret).getLastD acc.lastSecret } := by
  induction fdp' generalizing fdp acc above with
  | nil =>
    obtain rfl := List.map_eq_nil_iff.mp hnodes
    obtain rfl := Except.ok.inj h
    rfl
  | cons node' fdp' ih =>
    obtain ⟨node, fdp, rfl, hnode, hnodes⟩ := List.map_eq_cons_iff.mp hnodes
    obtain ⟨next, hnext, h⟩ := bind_eq_ok.mp h
    obtain ⟨rest, hrest, h⟩ := bind_eq_ok.mp h
    obtain rfl := Except.ok.inj h
    rw [secretsAbove, hnext, ok_bind, hnode, ih hnodes hrest]
    simp only [Record.setAll, List.map_cons, List.foldl_cons, List.getLastD_cons]

theorem pathSecretsAlongFilteredPath_eq {t : RatchetTree} {kdf : Kdf} {i m : ℕ} {lower upper : List ℕ}
    {f g : ℕ → PathNode} {own : PathSecret} {above : List PathSecret}
    (hfdp : filteredDirectPathAndCopathResolution i t = .ok ((lower ++ m :: upper).map f))
    (hf : ∀ m', (f m').nodeIndex = pathNode i m') (hg : ∀ m', (g m').nodeIndex = pathNode i m')
    (hlower : ∀ m' ∈ lower, m' < m) (hown : own.nodeIndex = pathNode i m)
    (habove : chainSecrets kdf own.secret (upper.map g) = .ok above) :
    pathSecretsAlongFilteredPath t i own.nodeIndex own.secret kdf = .ok
      { pathSecrets := .ofEntries ((own :: above).map fun p => (p.nodeIndex, p.secret))
        lastSecret := (above.map PathSecret.secret).getLastD own.secret } := by
  have hfind : ((lower ++ m :: upper).map f).findIdx? (fun entry => entry.nodeIndex = own.nodeIndex) =
      some lower.length := by
    rw [List.map_append, List.map_cons, findIdx?_append_cons, List.length_map]
    · rw [List.forall_mem_map]
      intro m' hm'
      rw [hf, hown, decide_eq_false_iff_not]
      exact fun heq => (hlower m' hm').ne (pathNode_inj heq)
    · simp [hf, hown]
  have hdrop : ((lower ++ m :: upper).map f).drop (lower.length + 1) = upper.map f := by
    rw [← List.map_drop, List.drop_append, List.drop_of_length_le (by omega), Nat.add_sub_cancel_left]
    rfl
  have hnodes : (upper.map f).map PathNode.nodeIndex = (upper.map g).map PathNode.nodeIndex := by
    simp [Function.comp_def, hf, hg]
  rw [pathSecretsAlongFilteredPath, hfdp, ok_bind]
  simp only [hfind, hdrop]
  exact secretsAbove_eq hnodes habove

/-! ## The ciphertext a member can open -/

/-- What is sealed to the public key opens under the private key. -/
def PrivateKeyOf (hpke : Hpke) (privateKey publicKey : Bytes) : Prop :=
  ∀ key coins plaintext info sealed, hpke.importPublicKey publicKey = .ok key →
    hpke.seal_ coins key plaintext info = .ok sealed →
    ∃ key', hpke.importPrivateKey privateKey = .ok key' ∧
      hpke.open_ key' sealed.enc sealed.ct info = .ok plaintext

/-- The keys of a leaf: those of the non-blank nodes above it that do not list it
as unmerged, and no others. -/
structure HoldsKeys (hpke : Hpke) (t : RatchetTree) (l : ℕ) (keys : Record ℤ Bytes) : Prop where
  all : ∀ k node, slot t k (l / 2 ^ k) = some node → l ∉ node.unmergedLeaves →
    keys.get (coord k (l / 2 ^ k)) ≠ none
  only : ∀ n privateKey, keys.get n = some privateKey → ∃ k node, n = coord k (l / 2 ^ k) ∧
    slot t k (l / 2 ^ k) = some node ∧ l ∉ node.unmergedLeaves ∧
    PrivateKeyOf hpke privateKey (getHpkePublicKey node)

theorem HoldsKeys.privateKeyOf {hpke : Hpke} {t : RatchetTree} {l : ℕ} {keys : Record ℤ Bytes}
    (h : HoldsKeys hpke t l keys) {n : ℤ} {privateKey : Bytes} (hn : keys.get n = some privateKey) :
    ∃ publicKey, publicKeyAt t n = .ok publicKey ∧ PrivateKeyOf hpke privateKey publicKey := by
  obtain ⟨k, node, rfl, hnode, -, hkey⟩ := h.only n privateKey hn
  exact ⟨getHpkePublicKey node, by rw [publicKeyAt, nodeAt_coord, hnode]; rfl, hkey⟩

/-- A leaf that is not left out holds the key of a node in the resolution above it. -/
theorem HoldsKeys.mem_resolution {hpke : Hpke} {t : RatchetTree} {l m : ℕ} {keys : Record ℤ Bytes}
    {exclude : List ℕ} (h : HoldsKeys hpke t l keys) (ht : Typed t) (hl : slot t 0 l ≠ none)
    (hnot : l ∉ exclude) :
    ∃ n ∈ filterNewLeaves (resolutionAt t m (l / 2 ^ m)) (exclude.map leafToNodeIndex),
      keys.get n ≠ none := by
  obtain ⟨leaf, hleaf⟩ := Option.ne_none_iff_exists'.mp hl
  obtain ⟨k, node, htop⟩ := exists_topmost (m := m) hleaf
  have hkeep : ∀ k', coord k' (l / 2 ^ k') ∉ exclude.map leafToNodeIndex := by
    intro k' hmem
    obtain ⟨u, hu, heq⟩ := List.mem_map.mp hmem
    rw [leafToNodeIndex_eq, coord_inj] at heq
    obtain ⟨rfl, rfl⟩ := heq
    rw [pow_zero, Nat.div_one] at hu
    exact hnot hu
  have hmem : ∀ k', coord k' (l / 2 ^ k') ∈ resolutionAt t m (l / 2 ^ m) →
      coord k' (l / 2 ^ k') ∈
        filterNewLeaves (resolutionAt t m (l / 2 ^ m)) (exclude.map leafToNodeIndex) := by
    intro k' hk'
    rw [filterNewLeaves, List.mem_filter]
    exact ⟨hk', by simpa using hkeep k'⟩
  by_cases hun : l ∈ node.unmergedLeaves
  · obtain ⟨l', rfl⟩ := ht.leaf l leaf hleaf
    refine ⟨coord 0 (l / 2 ^ 0), hmem 0 ?_, h.all 0 (.leaf l') ?_ (by simp [Node.unmergedLeaves])⟩
    · rw [pow_zero, Nat.div_one]
      exact (mem_resolutionAt ht).mpr ⟨k, _, node, htop, .inr ⟨l, hun, rfl⟩⟩
    · rw [pow_zero, Nat.div_one, hleaf]
  · exact ⟨coord k (l / 2 ^ k), hmem k ((mem_resolutionAt ht).mpr ⟨k, _, node, htop, .inl rfl⟩),
      h.all k node htop.node hun⟩

/-- The first recipient whose key is held, with the ciphertext at its place. -/
structure OwnCiphertext (cs : CiphersuiteImpl) (t : RatchetTree) (context secret : Bytes)
    (keys : Record ℤ Bytes) (recipients : List ℤ) (ciphertexts : List HPKECiphertext) (y : ℕ)
    (nodeIndex : ℤ) (ciphertext : HPKECiphertext) : Prop where
  recipient : recipients[y]? = some nodeIndex
  sent : ciphertexts[y]? = some ciphertext
  held : keys.get nodeIndex ≠ none
  first : ∀ n ∈ recipients.take y, keys.get n = none
  sealed : SealedTo cs t context secret nodeIndex ciphertext

theorem decryptPathSecret_eq {cs : CiphersuiteImpl} {t : RatchetTree} {gc : GroupContext}
    {context secret : Bytes} {keys : Record ℤ Bytes} {l : ℕ} {recipients : List ℤ}
    {ciphertexts : List HPKECiphertext} (hcontext : encodeGroupContext gc = .ok context)
    (hkeys : HoldsKeys cs.hpke t l keys)
    (hsealed : List.Forall₂ (SealedTo cs t context secret) recipients ciphertexts)
    (hheld : ∃ n ∈ recipients, keys.get n ≠ none) :
    (∃ y n ct, OwnCiphertext cs t context secret keys recipients ciphertexts y n ct) ∧
    decryptPathSecret keys gc cs (recipients.zip ciphertexts) = .ok secret := by
  induction hsealed with
  | nil =>
    obtain ⟨n, hn, -⟩ := hheld
    cases hn
  | @cons n ct recipients ciphertexts hct _ ih =>
    rw [List.zip_cons_cons, decryptPathSecret]
    cases hget : keys.get n with
    | none =>
      have hrest : ∃ n ∈ recipients, keys.get n ≠ none := by
        obtain ⟨n', hn', hne⟩ := hheld
        rcases List.mem_cons.mp hn' with rfl | hn'
        · exact absurd hget hne
        · exact ⟨n', hn', hne⟩
      obtain ⟨⟨y, n', ct', hown⟩, hdecrypt⟩ := ih hrest
      refine ⟨⟨y + 1, n', ct', hown.recipient, hown.sent, hown.held, ?_, hown.sealed⟩, hdecrypt⟩
      rw [List.take_succ_cons, List.forall_mem_cons]
      exact ⟨hget, hown.first⟩
    | some privateKey =>
      refine ⟨⟨0, n, ct, rfl, rfl, by simp [hget], by simp, hct⟩, ?_⟩
      obtain ⟨publicKey, hpublic, hof⟩ := hkeys.privateKeyOf hget
      obtain ⟨coins, recipientKey, hrecipient, hencrypt⟩ := hct
      obtain rfl : publicKey = recipientKey := Except.ok.inj (hpublic.symm.trans hrecipient)
      obtain ⟨key, hkey, hencrypt⟩ := bind_eq_ok.mp hencrypt
      obtain ⟨sealed, hsealed, hencrypt⟩ := bind_eq_ok.mp hencrypt
      obtain rfl := Except.ok.inj hencrypt
      obtain ⟨info, hinfo, hsealed⟩ := bind_eq_ok.mp hsealed
      obtain ⟨key', hkey', hopen⟩ := hof key coins secret info sealed hkey hsealed
      simp only [hkey', ok_bind, hcontext, decryptWithLabel, hinfo, hopen]

/-! ## Sender and receivers -/

/-- A member receives the `x`-th secret of a created path, and with it the others
of the nodes above it. -/
structure ReceivesSecret (cs : CiphersuiteImpl) (t : RatchetTree) (i : ℕ) (gc : GroupContext)
    (exclude : List ℤ) (created : CreatedPath cs) (path : PrivateKeyPath) (x : ℕ)
    (pathSecret : PathSecret) (node : UpdatePathNode) : Prop where
  sentSecret : created.pathSecrets[x]? = some pathSecret
  sentNode : created.updatePath.nodes[x]? = some node
  ancestor : ∃ resolution, filterNewLeaves resolution exclude = pathSecret.sendTo ∧
    firstMatchAncestor created.tree path.leafIndex i created.updatePath = .ok
      { nodeIndex := pathSecret.nodeIndex, resolution := resolution, updateNode := some node }
  count : node.encryptedPathSecret.length = pathSecret.sendTo.length
  ciphertext : ∃ context y n ct, encodeGroupContext (pathContext gc created.treeHash) = .ok context ∧
    OwnCiphertext cs t context pathSecret.secret path.privateKeys pathSecret.sendTo
      node.encryptedPathSecret y n ct
  received : applyUpdatePathSecret created.tree path i (pathContext gc created.treeHash)
    created.updatePath exclude cs =
      .ok { nodeIndex := pathSecret.nodeIndex, pathSecret := pathSecret.secret }
  along : ∃ along, pathSecretsAlongFilteredPath created.tree i pathSecret.nodeIndex
      pathSecret.secret cs.kdf = .ok along ∧
    (∀ n secret, along.pathSecrets.get n = some secret ↔ ∃ p ∈ created.pathSecrets,
      p.nodeIndex = n ∧ p.secret = secret ∧
      isAncestor (leafToNodeIndex path.leafIndex) n created.tree.length = .ok true) ∧
    created.pathSecrets.getLast?.map PathSecret.secret = some along.lastSecret

section
variable {cs : CiphersuiteImpl} {t : RatchetTree} {d i : ℕ} {gc : GroupContext}
  {key : cs.signature.SignatureSecretKey} {coins : PathCoins} {exclude : List ℤ}
  {patch : ResolvedLeafNodePatch cs.signature} {created : CreatedPath cs}

theorem createUpdatePath_applies (hlen : t.length = size d) (hd : d ≤ 31) (ht : Covered t)
    (h : createUpdatePath t i gc cs key coins exclude patch = .ok created)
    (hfresh : FreshKeys t created.updatePath) :
    applyUpdatePath t i created.updatePath cs.hash = .ok created.tree := by
  obtain ⟨hw, ⟨leaf, hleaf⟩, -⟩ := createUpdatePath_spec hlen hd h
  obtain ⟨secrets, context, hchain, -, hsealed, -⟩ := createUpdatePath_secrets hlen hd h
  have hnodes : secrets.map PathSecret.nodeIndex = (filteredLevels t d i).map (pathNode i) := by
    rw [(chainSecrets_nodes hchain).1, senderPath, List.map_map]
    rfl
  have hcount : created.updatePath.nodes.length = (filteredLevels t d i).length := by
    rw [← hsealed.length_eq, ← List.length_map PathSecret.nodeIndex, hnodes, List.length_map]
  have hkeys : List.Forall₂ (fun n (node : UpdatePathNode) => publicKeyAt created.tree n =
      .ok node.hpkePublicKey) (secrets.map PathSecret.nodeIndex) created.updatePath.nodes :=
    List.forall₂_map_left_iff.mpr (hsealed.imp fun _ _ hs => hs.key)
  rw [hnodes, List.forall₂_map_left_iff] at hkeys
  refine applyUpdatePath_eq hlen ht hw hleaf hfresh hcount fun e he => ?_
  have hzip := List.mem_reverse.mp he
  obtain ⟨p, hp, -⟩ := hw.node e.1 (List.of_mem_zip hzip).1
  have hkey := (List.forall₂_iff_zip.mp hkeys).2 hzip
  rw [publicKeyAt, pathNode, nodeAt_coord, hp] at hkey
  exact ⟨p, hp, Except.ok.inj hkey⟩

theorem createUpdatePath_receives {excluded : List ℕ} {path : PrivateKeyPath}
    (hlen : t.length = size d) (hd : d ≤ 31) (ht : Typed t)
    (h : createUpdatePath t i gc cs key coins (excluded.map leafToNodeIndex) patch = .ok created)
    (hne : path.leafIndex ≠ i) (hl : slot t 0 path.leafIndex ≠ none)
    (hnot : path.leafIndex ∉ excluded)
    (hkeys : HoldsKeys cs.hpke t path.leafIndex path.privateKeys) :
    ∃ x pathSecret node, ReceivesSecret cs t i gc (excluded.map leafToNodeIndex) created path x
      pathSecret node := by
  obtain ⟨hw, -, -⟩ := createUpdatePath_spec hlen hd h
  obtain ⟨secrets, context, hchain, hcontext, hsealed, hsent⟩ := createUpdatePath_secrets hlen hd h
  have hlt : path.leafIndex < 2 ^ d := by
    obtain ⟨leaf, hleaf⟩ := Option.ne_none_iff_exists'.mp hl
    exact InOrder.leaf_lt_size.mp (hlen ▸ index_lt_of_slot hleaf)
  obtain ⟨m, hmd, hm⟩ := exists_branch hw.leaf_lt hlt hne
  have hmem : m ∈ filteredLevels t d i := WebcryptoMls.mem_filteredLevels.mpr
    ⟨hmd, fun hnil => hl (resolutionAt_eq_nil.mp hnil 0 _ (InOrder.below_leaf.mpr hm))⟩
  -- the levels below the branch are the sender's alone, those above are shared
  obtain ⟨lower, upper, hsplit⟩ := List.append_of_mem hmem
  have hlevels : ∀ m' ∈ lower ++ m :: upper, m' < d := fun m' hm' =>
    (WebcryptoMls.mem_filteredLevels.mp (hsplit ▸ hm')).1
  have hsorted := hsplit ▸ filteredLevels_sorted t d i
  obtain ⟨-, hupper, hlower⟩ := List.pairwise_append.mp hsorted
  replace hlower : ∀ m' ∈ lower, m' < m := fun m' hm' => hlower m' hm' m (List.mem_cons_self ..)
  rw [senderPath, hsplit, List.map_append, List.map_cons] at hchain
  obtain ⟨below, own, above, rfl, hlength, hbelow, hindex, hsendTo, habove⟩ :=
    chainSecrets_append hchain
  rw [List.length_map] at hlength
  rw [List.map_map] at hbelow
  dsimp only at hindex hsendTo
  have hsent := hsent (by simp)
  obtain ⟨node, hnode, hseals⟩ := forall₂_append_cons hsealed
  have hfdp := filteredDirectPathAndCopathResolution_coord hw.length hw.depth hw.leaf_lt
  rw [hw.filteredLevels_eq, hsplit] at hfdp
  have hmatch : firstMatchAncestor created.tree path.leafIndex i created.updatePath = .ok
      { nodeIndex := own.nodeIndex, resolution := resolutionAt t m (sib (i / 2 ^ m)),
        updateNode := some node } := by
    rw [firstMatchAncestor, hfdp, ok_bind,
      firstAncestor_eq hw.depth hlt hw.length hm (fun _ => rfl) hlower hmd, ok_bind, hindex,
      hw.resolutionAt_copath, Nat.zero_add, ← hlength]
    simp only [hnode]
    rfl
  have hheld := hkeys.mem_resolution (m := m) ht hl hnot
  rw [hm, ← hsendTo] at hheld
  obtain ⟨⟨y, n, ct, hown⟩, hdecrypt⟩ := decryptPathSecret_eq hcontext hkeys hseals.secret hheld
  refine ⟨below.length, own, node, ⟨?_, hnode, ⟨_, hsendTo.symm, hmatch⟩,
    hseals.secret.length_eq.symm, ⟨context, y, n, ct, hcontext, hown⟩, ?_, ?_⟩⟩
  · rw [hsent]
    simp
  · simp only [applyUpdatePathSecret, hmatch, ok_bind, ← hsendTo, hdecrypt,
      hseals.secret.length_eq, ne_eq, not_true_eq_false, if_false]
    rfl
  · have halong := pathSecretsAlongFilteredPath_eq (g := fun m' =>
      { nodeIndex := pathNode i m', resolution := filterNewLeaves (resolutionAt t m' (sib (i / 2 ^ m')))
          (excluded.map leafToNodeIndex) }) hfdp (fun _ => rfl) (fun _ => rfl) hlower hindex habove
    have hindices : (own :: above).map PathSecret.nodeIndex = (m :: upper).map (pathNode i) := by
      rw [List.map_cons, (chainSecrets_nodes habove).1, List.map_map, hindex]
      rfl
    have hnodup : (((own :: above).map fun p => (p.nodeIndex, p.secret)).map Prod.fst).Nodup := by
      rw [List.map_map]
      change ((own :: above).map PathSecret.nodeIndex).Nodup
      rw [hindices]
      exact List.Nodup.map (fun _ _ heq => pathNode_inj heq) (hupper.imp Nat.ne_of_lt)
    refine ⟨_, halong, fun n secret => ?_, ?_⟩
    · rw [Record.get_ofEntries_eq_some hnodup, hsent, hw.length, leafToNodeIndex_eq]
      constructor
      · intro hmem
        obtain ⟨p, hp, heq⟩ := List.mem_map.mp hmem
        obtain ⟨rfl, rfl⟩ := Prod.mk.inj heq
        have hp' : p.nodeIndex ∈ (m :: upper).map (pathNode i) := hindices ▸ List.mem_map_of_mem hp
        obtain ⟨m', hm', heq⟩ := List.mem_map.mp hp'
        refine ⟨p, List.mem_append_right _ hp, rfl, rfl, ?_⟩
        rw [← heq, isAncestor_path hw.depth hlt hm (hlevels m' (List.mem_append_right _ hm')),
          decide_eq_true]
        rcases List.mem_cons.mp hm' with rfl | hm'
        · exact le_rfl
        · exact ((List.pairwise_cons.mp hupper).1 m' hm').le
      · rintro ⟨p, hp, rfl, rfl, hanc⟩
        refine List.mem_map.mpr ⟨p, (List.mem_append.mp hp).resolve_left fun hp => ?_, rfl⟩
        have hp' : p.nodeIndex ∈ lower.map (pathNode i) := by
          have := List.mem_map_of_mem (f := PathSecret.nodeIndex) hp
          rw [hbelow] at this
          exact this
        obtain ⟨m', hm', heq⟩ := List.mem_map.mp hp'
        rw [← heq, isAncestor_path hw.depth hlt hm (hlevels m' (List.mem_append_left _ hm')),
          Except.ok.injEq, decide_eq_true_iff] at hanc
        exact absurd (hlower m' hm') (Nat.not_lt.mpr hanc)
    · rw [hsent]
      simp only [List.getLast?_append_cons, List.getLast?_cons, Option.map_some,
        List.getLastD_eq_getLast?, List.getLast?_map]
      cases above.getLast? <;> rfl

/-- For every tree without a parent over an empty side: a receiver writes the
sender's tree, and every other member that is not left out receives the secrets
of the nodes above it. -/
theorem updatePath_lines_up {excluded : List ℕ} (hlen : t.length = size d) (hd : d ≤ 31)
    (htyped : Typed t) (hcovered : Covered t)
    (h : createUpdatePath t i gc cs key coins (excluded.map leafToNodeIndex) patch = .ok created)
    (hfresh : FreshKeys t created.updatePath) :
    applyUpdatePath t i created.updatePath cs.hash = .ok created.tree ∧
    treeHashRoot created.tree cs.hash = .ok created.treeHash ∧
    ∀ path : PrivateKeyPath, path.leafIndex ≠ i → slot t 0 path.leafIndex ≠ none →
      path.leafIndex ∉ excluded → HoldsKeys cs.hpke t path.leafIndex path.privateKeys →
      ∃ x pathSecret node, ReceivesSecret cs t i gc (excluded.map leafToNodeIndex) created path x
        pathSecret node :=
  ⟨createUpdatePath_applies hlen hd hcovered h hfresh, (createUpdatePath_spec hlen hd h).2.2,
    fun _ hne hl hnot hkeys => createUpdatePath_receives hlen hd htyped h hne hl hnot hkeys⟩

end

/-! ## Two members -/

/-- Two members under a blank root. -/
def pairTree : RatchetTree :=
  [some (.leaf { (default : LeafNode) with hpkePublicKey := [1] }), none,
    some (.leaf { (default : LeafNode) with hpkePublicKey := [2] })]

def pairContext : GroupContext :=
  { version := .mls10, cipherSuite := .MLS_128_DHKEMX25519_AES128GCM_SHA256_Ed25519, groupId := [],
    epoch := 0, treeHash := [], confirmedTranscriptHash := [], extensions := [] }

/-- A path of the first member. -/
def pairPath : Except MlsError (CreatedPath plainSuite) :=
  createUpdatePath pairTree 0 pairContext plainSuite [3]
    { pathSecret := [4], signature := [], encryptions := fun _ => [] } ([].map leafToNodeIndex)

/-- The keys of the second member. -/
def pairKeys : PrivateKeyPath := { leafIndex := 1, privateKeys := Record.empty.set 2 [2] }

theorem pairKeys_holdsKeys : HoldsKeys plainSuite.hpke pairTree 1 pairKeys.privateKeys where
  all k node hnode _ := by
    match k with
    | 0 => decide
    | 1 => cases hnode
    | k + 2 =>
      have hlt : index (k + 2) (1 / 2 ^ (k + 2)) < size 1 := index_lt_of_slot hnode
      have := (InOrder.index_lt_size.mp hlt).1
      omega
  only n privateKey hget := by
    rw [pairKeys, Record.get_set, Record.get_empty] at hget
    split_ifs at hget with hn
    obtain rfl := Option.some.inj hget
    refine ⟨0, _, hn, rfl, by simp [Node.unmergedLeaves], fun key coins plaintext info sealed hkey hseal => ?_⟩
    obtain rfl := Except.ok.inj hkey
    obtain rfl := Except.ok.inj hseal
    exact ⟨[2], rfl, by simp [plainSuite, getHpkePublicKey, pure, Except.pure]⟩

theorem updatePath_lines_up_pair : ∃ created, pairPath = .ok created ∧
    applyUpdatePath pairTree 0 created.updatePath plainHash = .ok created.tree ∧
    ∃ x pathSecret node, ReceivesSecret plainSuite pairTree 0 pairContext ([].map leafToNodeIndex)
      created pairKeys x pathSecret node := by
  have hcheck : (pairPath.map fun created => decide (newKeys created.updatePath).Nodup &&
      (newKeys created.updatePath).all fun key => !keyInTree pairTree key) = .ok true := by
    decide +kernel
  cases hpath : pairPath with
  | error e => rw [hpath] at hcheck; cases hcheck
  | ok created =>
    rw [hpath, map_ok, Except.ok.injEq, Bool.and_eq_true, decide_eq_true_iff, List.all_eq_true]
      at hcheck
    have hfresh : FreshKeys pairTree created.updatePath := ⟨hcheck.1, fun key hkey hin => by
      simpa [keyInTree_iff.mpr hin] using hcheck.2 key hkey⟩
    have hadd : addLeafNode [some (.leaf { (default : LeafNode) with hpkePublicKey := [1] })]
        { (default : LeafNode) with hpkePublicKey := [2] } = .ok (pairTree, 2) := rfl
    obtain ⟨hinv, -⟩ := ((Reachable.init _).addLeafNode hadd).invariant
    obtain ⟨happly, -, hreceives⟩ := @updatePath_lines_up _ _ _ _ _ _ _ _ _ [] rfl (show 1 ≤ 31 by omega)
      hinv.typed hinv.isCovered hpath hfresh
    exact ⟨created, rfl, happly,
      hreceives pairKeys (by decide) (by decide) (by decide) pairKeys_holdsKeys⟩

end WebcryptoMls
