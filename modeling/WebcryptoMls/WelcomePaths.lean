import WebcryptoMls.CommittedLeaves
import WebcryptoMls.PathRecipients

/-!
# The keys of a welcomed member

A committer leaves the members it adds out of its path: they learn the path secret of their
common ancestor through the Welcome. From there upwards a new member derives the committer's
keys, and below there is none to know, since every parent over a leaf that was just added lists
it as unmerged.
-/
namespace WebcryptoMls
open InOrder (index size Below)
open Records

/-! ## The keys of a created path -/

/-- The keys that a path secret yields. -/
def secretKeys (cs : CiphersuiteImpl) (secret : Bytes) :
    Except MlsError (cs.hpke.PrivateKey × Bytes) := do
  let nodeSecret ← deriveSecret secret "node" cs.kdf
  let (privateKey, publicKey) ← cs.hpke.deriveKeyPair nodeSecret
  let derived ← cs.hpke.exportPublicKey publicKey
  pure (privateKey, derived)

/-- The node at level `m + 1` of leaf `i`'s path has the key of its secret. -/
def HoldsSecretKey (cs : CiphersuiteImpl) (t : RatchetTree) (i m : ℕ) (pathSecret : PathSecret) :
    Prop :=
  ∃ keys p, secretKeys cs pathSecret.secret = .ok keys ∧
    slot t (m + 1) (i / 2 ^ (m + 1)) = some (.parent p) ∧ p.hpkePublicKey = keys.2

section
variable {cs : CiphersuiteImpl} {t t' : RatchetTree} {d i : ℕ}

theorem initialTreeUpdateStep_keys {node : PathNode} {last : PathSecret} {below ps : List PathSecret}
    (h : initialTreeUpdateStep cs (t, last :: below) node = .ok (t', ps)) :
    ∃ keys next, deriveSecret last.secret "path" cs.kdf = .ok next ∧
      secretKeys cs next = .ok keys ∧
      t' = setNode t node.nodeIndex (some (.parent
        { hpkePublicKey := keys.2, parentHash := [], unmergedLeaves := [] })) ∧
      ps = { nodeIndex := node.nodeIndex, secret := next, sendTo := node.resolution } ::
        last :: below := by
  simp only [initialTreeUpdateStep, lastPathSecret, pure_bind] at h
  obtain ⟨next, hnext, h⟩ := bind_eq_ok.mp h
  obtain ⟨nodeSecret, hnode, h⟩ := bind_eq_ok.mp h
  obtain ⟨⟨privateKey, publicKey⟩, hpair, h⟩ := bind_eq_ok.mp h
  obtain ⟨derived, hderived, h⟩ := bind_eq_ok.mp h
  obtain ⟨rfl, rfl⟩ := Prod.mk.inj (Except.ok.inj h)
  refine ⟨(privateKey, derived), next, hnext, ?_, rfl, rfl⟩
  simp only [secretKeys, hnode, ok_bind, hpair, hderived]
  rfl

/-- The loop writes at each level the key of the secret it derives there. -/
theorem foldlM_initialTreeUpdateStep_keys {res : ℕ → List ℤ} {ms : List ℕ} {last : PathSecret}
    {below ps secrets : List PathSecret} (hlen : t.length = size d) (hi : i < 2 ^ d)
    (hms : ∀ m ∈ ms, m < d) (hsorted : ms.Pairwise (· < ·))
    (hchain : chainSecrets cs.kdf last.secret (ms.map fun m =>
      { nodeIndex := pathNode i m, resolution := res m }) = .ok secrets)
    (h : (ms.map fun m => ({ nodeIndex := pathNode i m, resolution := res m } : PathNode)).foldlM
      (initialTreeUpdateStep cs) (t, last :: below) = .ok (t', ps)) :
    List.Forall₂ (HoldsSecretKey cs t' i) ms secrets := by
  induction ms generalizing t last below secrets with
  | nil =>
    obtain rfl := Except.ok.inj hchain
    exact .nil
  | cons m ms ih =>
    rw [List.map_cons, List.foldlM_cons] at h
    obtain ⟨⟨t₁, ps₁⟩, hstep, h⟩ := bind_eq_ok.mp h
    obtain ⟨keys, next, hnext, hkeys, rfl, rfl⟩ := initialTreeUpdateStep_keys hstep
    rw [List.map_cons, chainSecrets, hnext, ok_bind] at hchain
    obtain ⟨above, habove, hchain⟩ := bind_eq_ok.mp hchain
    obtain rfl := Except.ok.inj hchain
    have hm := hms m (List.mem_cons_self ..)
    have hlt : index (m + 1) (i / 2 ^ (m + 1)) < t.length := by rw [hlen]; exact pathNode_lt hm hi
    have hlen₁ : ∀ v, (setNode t (pathNode i m) v).length = size d := fun v => by
      rw [length_setNode, hlen]
    have hms' : ∀ m ∈ ms, m < d := fun m hm => hms m (List.mem_cons_of_mem _ hm)
    obtain ⟨hfirst, hsorted'⟩ := List.pairwise_cons.mp hsorted
    refine .cons ?_ (ih (hlen₁ _) hms' hsorted' habove h)
    refine ⟨keys, { hpkePublicKey := keys.2, parentHash := [], unmergedLeaves := [] }, hkeys, ?_, rfl⟩
    -- the later rounds write higher levels
    rw [(foldlM_initialTreeUpdateStep (hlen₁ _) hi hms' h).2.1 _ _ fun m' hm' heq => ?_, pathNode,
      slot_setNode hlt, if_pos ⟨rfl, rfl⟩]
    have := hfirst m' hm'
    omega

theorem createUpdatePath_keys {gc : GroupContext} {key : cs.signature.SignatureSecretKey}
    {coins : PathCoins} {exclude : List ℤ} {patch : ResolvedLeafNodePatch cs.signature}
    {created : CreatedPath cs} {secrets : List PathSecret} (hlen : t.length = size d) (hd : d ≤ 31)
    (hchain : chainSecrets cs.kdf coins.pathSecret (senderPath t d i exclude) = .ok secrets)
    (h : createUpdatePath t i gc cs key coins exclude patch = .ok created) :
    List.Forall₂ (HoldsSecretKey cs created.tree i) (filteredLevels t d i) secrets := by
  unfold createUpdatePath at h
  simp only [leafToNodeIndex_eq, nodeAt_coord] at h
  split at h
  case h_2 => cases h
  case h_1 originalLeafNode horig =>
    obtain ⟨leafNodeSecret, -, h⟩ := bind_eq_ok.mp h
    obtain ⟨⟨leafPrivateKey, leafPublicKey⟩, -, h⟩ := bind_eq_ok.mp h
    obtain ⟨fdp, hfdp, h⟩ := bind_eq_ok.mp h
    obtain ⟨⟨t₁, ps⟩, hinit, h⟩ := bind_eq_ok.mp h
    obtain ⟨t₂, hinsert, h⟩ := bind_eq_ok.mp h
    obtain ⟨⟨leafHash, r⟩, -, h⟩ := bind_eq_ok.mp h
    obtain ⟨hpkePublicKey, -, h⟩ := bind_eq_ok.mp h
    obtain ⟨signed, -, h⟩ := bind_eq_ok.mp h
    obtain ⟨root, -, h⟩ := bind_eq_ok.mp h
    obtain ⟨nodes, -, h⟩ := bind_eq_ok.mp h
    obtain rfl := Except.ok.inj h
    obtain ⟨hd30, hi⟩ := filteredDirectPathAndCopathResolution_eq_ok hlen hd hfdp
    rw [filteredDirectPathAndCopathResolution_coord hlen hd30 hi, Except.ok.injEq] at hfdp
    subst hfdp
    set levels := filteredLevels t d i with hlevels
    have hlt : ∀ m ∈ levels, m < d := fun m hm => (mem_filteredLevels.mp hm).1
    rw [List.map_map] at hinit
    have hkeys := foldlM_initialTreeUpdateStep_keys hlen hi hlt (filteredLevels_sorted t d i) hchain
      hinit
    obtain ⟨hlen₁, -, -⟩ := foldlM_initialTreeUpdateStep hlen hi hlt hinit
    have hw : WritesParents cs.hash (KeepsKey i) i levels.reverse t₁ t₂ := by
      apply foldlM_insertParentHash
      simp only [insertParentHashes, ← List.map_reverse, List.map_map] at hinsert
      exact hinsert
    have hlt' : ∀ m ∈ levels.reverse, m < d := fun m hm => hlt m (List.mem_reverse.mp hm)
    have hleafIndex : index 0 i < t₂.length := by
      rw [hw.length, hlen₁]
      exact InOrder.leaf_lt_size.mpr hi
    rw [List.forall₂_iff_zip] at hkeys ⊢
    refine ⟨hkeys.1, fun {m secret} hzip => ?_⟩
    obtain ⟨keys, p, hsecret, hslot, hpublic⟩ := hkeys.2 hzip
    obtain ⟨p', mid, hp', ⟨p₀, hp₀, hkey, -⟩, -, -, hbelow, -⟩ := hw.node hlen₁ hi hlt'
      (filteredLevels_reverse_sorted t d i) (List.mem_reverse.mpr (List.of_mem_zip hzip).1)
    obtain rfl : p = p₀ := Node.parent.inj (Option.some.inj
      (hslot.symm.trans ((hbelow m le_rfl).symm.trans hp₀)))
    refine ⟨keys, p', hsecret, ?_, hkey.trans hpublic⟩
    rw [slot_setNode hleafIndex, if_neg (by omega), hp']

/-- The part of a created path that lies above leaf `l`: the levels from `m` up, with their
secrets, lowest first. -/
structure SecretsAbove (cs : CiphersuiteImpl) (t : RatchetTree) (d i l : ℕ) (created : CreatedPath cs)
    (m : ℕ) (upper : List ℕ) (own : PathSecret) (above : List PathSecret) : Prop where
  branch : l / 2 ^ m = sib (i / 2 ^ m)
  distinct : (created.pathSecrets.map PathSecret.nodeIndex).Nodup
  levels : ∀ m', m' ∈ m :: upper ↔ m' ∈ filteredLevels t d i ∧ m ≤ m'
  ancestor : firstCommonAncestor created.tree l i = .ok own.nodeIndex
  sent : (created.pathSecrets.find? fun ps => ps.nodeIndex = own.nodeIndex) = some own
  suffix : own :: above <:+ created.pathSecrets
  nodes : List.Forall₂ (fun m' p => p.nodeIndex = pathNode i m' ∧ HoldsSecretKey cs created.tree i m' p)
    (m :: upper) (own :: above)
  along : pathSecretsAlongFilteredPath created.tree i own.nodeIndex own.secret cs.kdf = .ok
    { pathSecrets := .ofEntries ((own :: above).map fun p => (p.nodeIndex, p.secret))
      lastSecret := (above.map PathSecret.secret).getLastD own.secret }

/-- Every other leaf has one, left out of the path or not. -/
theorem exists_secretsAbove {gc : GroupContext} {key : cs.signature.SignatureSecretKey}
    {coins : PathCoins} {exclude : List ℤ} {patch : ResolvedLeafNodePatch cs.signature}
    {created : CreatedPath cs} {l : ℕ} (hlen : t.length = size d) (hd : d ≤ 31)
    (h : createUpdatePath t i gc cs key coins exclude patch = .ok created) (hne : l ≠ i)
    (hl : slot t 0 l ≠ none) :
    ∃ m upper own above, SecretsAbove cs t d i l created m upper own above := by
  obtain ⟨hw, -, -⟩ := createUpdatePath_spec hlen hd h
  obtain ⟨secrets, context, hchain, -, -, hsent⟩ := createUpdatePath_secrets hlen hd h
  have hkeys := createUpdatePath_keys hlen hd hchain h
  have hdistinct : (secrets.map PathSecret.nodeIndex).Nodup := by
    rw [(chainSecrets_nodes hchain).1, senderPath, List.map_map]
    exact List.Nodup.map (fun _ _ heq => pathNode_inj heq)
      ((filteredLevels_sorted t d i).imp Nat.ne_of_lt)
  have hlt : l < 2 ^ d := by
    obtain ⟨leaf, hleaf⟩ := Option.ne_none_iff_exists'.mp hl
    exact InOrder.leaf_lt_size.mp (hlen ▸ index_lt_of_slot hleaf)
  obtain ⟨m, hmd, hm⟩ := exists_branch hw.leaf_lt hlt hne
  have hmem : m ∈ filteredLevels t d i := WebcryptoMls.mem_filteredLevels.mpr
    ⟨hmd, fun hnil => hl (resolutionAt_eq_nil.mp hnil 0 _ (InOrder.below_leaf.mpr hm))⟩
  obtain ⟨lower, upper, hsplit⟩ := List.append_of_mem hmem
  have hsorted := hsplit ▸ filteredLevels_sorted t d i
  obtain ⟨-, hupper, hcross⟩ := List.pairwise_append.mp hsorted
  have hlower : ∀ m' ∈ lower, m' < m := fun m' hm' => hcross m' hm' m (List.mem_cons_self ..)
  rw [senderPath, hsplit, List.map_append, List.map_cons] at hchain
  obtain ⟨below, own, above, rfl, hlength, hbelow, hindex, -, habove⟩ := chainSecrets_append hchain
  rw [List.length_map] at hlength
  have hsent := hsent (by simp)
  have hfdp := filteredDirectPathAndCopathResolution_coord hw.length hw.depth hw.leaf_lt
  rw [hw.filteredLevels_eq, hsplit] at hfdp
  have hindices : (own :: above).map PathSecret.nodeIndex = (m :: upper).map (pathNode i) := by
    rw [List.map_cons, (chainSecrets_nodes habove).1, List.map_map, hindex]
    rfl
  rw [hsplit] at hkeys
  refine ⟨m, upper, own, above, hm, hsent ▸ hdistinct, fun m' => ?_, ?_, ?_, ?_, ?_, ?_⟩
  · rw [hsplit]
    constructor
    · intro hm'
      refine ⟨List.mem_append_right _ hm', ?_⟩
      rcases List.mem_cons.mp hm' with rfl | hm'
      · exact le_rfl
      · exact ((List.pairwise_cons.mp hupper).1 m' hm').le
    · rintro ⟨hm', hle⟩
      exact (List.mem_append.mp hm').resolve_left fun hm' => absurd (hlower m' hm') (not_lt.mpr hle)
  · rw [firstCommonAncestor, hfdp, ok_bind,
      firstAncestor_eq hw.depth hlt hw.length hm (fun _ => rfl) hlower hmd, ok_bind, hindex]
    rfl
  · rw [hsent, List.find?_append, List.find?_eq_none.mpr, Option.none_or, List.find?_cons_of_pos]
    · simp
    · intro p hp
      have hp' : p.nodeIndex ∈ lower.map (pathNode i) := by
        have := List.mem_map_of_mem (f := PathSecret.nodeIndex) hp
        rw [hbelow, List.map_map] at this
        exact this
      obtain ⟨m', hm', heq⟩ := List.mem_map.mp hp'
      rw [decide_eq_true_iff, ← heq, hindex]
      exact fun heq => (hlower m' hm').ne (pathNode_inj heq)
  · rw [hsent]
    exact List.suffix_append ..
  · have hdrop := List.forall₂_drop lower.length hkeys
    rw [List.drop_left, ← hlength, List.drop_left] at hdrop
    rw [← List.forall₂_eq_eq_eq, List.forall₂_map_left_iff, List.forall₂_map_right_iff] at hindices
    have hplaces := hindices.flip
    rw [List.forall₂_iff_zip] at hdrop hplaces ⊢
    exact ⟨hdrop.1, fun hzip => ⟨hplaces.2 hzip, hdrop.2 hzip⟩⟩
  · exact pathSecretsAlongFilteredPath_eq (g := fun m' =>
      { nodeIndex := pathNode i m', resolution := filterNewLeaves (resolutionAt t m' (sib (i / 2 ^ m')))
          exclude }) hfdp (fun _ => rfl) (fun _ => rfl) hlower hindex habove

/-! ## Keys from path secrets -/

/-- The exported halves of a derived key pair belong together. -/
def DerivesKeyPairs (hpke : Hpke) : Prop :=
  ∀ secret privateKey publicKey privateBytes publicBytes,
    hpke.deriveKeyPair secret = .ok (privateKey, publicKey) →
    hpke.exportPrivateKey privateKey = .ok privateBytes →
    hpke.exportPublicKey publicKey = .ok publicBytes → PrivateKeyOf hpke privateBytes publicBytes

theorem toPrivateKey_fst {verifyAgainstTree : Option RatchetTree} {entry result : ℤ × Bytes}
    (h : toPrivateKey cs verifyAgainstTree entry = .ok result) : result.1 = entry.1 := by
  obtain ⟨_, -, h⟩ := bind_eq_ok.mp h
  obtain ⟨⟨_, _⟩, -, h⟩ := bind_eq_ok.mp h
  dsimp only at h
  split at h
  · obtain ⟨_, -, h⟩ := bind_eq_ok.mp h
    rw [← Except.ok.inj h]
  · obtain ⟨_, -, h⟩ := bind_eq_ok.mp h
    split_ifs at h
    obtain ⟨_, -, h⟩ := bind_eq_ok.mp h
    rw [← Except.ok.inj h]

/-- A key is read at each node that has a secret. -/
theorem toPrivateKeyPath_get {pathSecrets : PathSecrets} {leafIndex : ℕ}
    {verifyAgainstTree : Option RatchetTree} {path : PrivateKeyPath}
    (h : toPrivateKeyPath pathSecrets leafIndex cs verifyAgainstTree = .ok path) :
    path.leafIndex = leafIndex ∧ ∀ n key, path.privateKeys.get n = some key ↔
      ∃ secret, pathSecrets.get n = some secret ∧
        toPrivateKey cs verifyAgainstTree (n, secret) = .ok (n, key) := by
  obtain ⟨asArray, hmap, h⟩ := bind_eq_ok.mp h
  obtain rfl := Except.ok.inj h
  have hfst : asArray.map Prod.fst = pathSecrets.entries.map Prod.fst := by
    have hforall := (forall₂_of_mapM hmap).imp fun _ _ he => (toPrivateKey_fst he).symm
    rw [← List.forall₂_eq_eq_eq, List.forall₂_map_left_iff, List.forall₂_map_right_iff]
    exact hforall.flip.imp fun _ _ he => he.symm
  refine ⟨rfl, fun n key => ?_⟩
  rw [Record.get_ofEntries_eq_some (hfst ▸ pathSecrets.nodup)]
  constructor
  · intro hmem
    obtain ⟨⟨n', secret⟩, hentry, hkey⟩ := mem_of_mapM hmap _ hmem
    obtain rfl : n = n' := toPrivateKey_fst hkey
    exact ⟨secret, Record.get_eq_some.mpr hentry, hkey⟩
  · rintro ⟨secret, hentry, hkey⟩
    obtain ⟨result, hmem, hresult⟩ := exists_mem_of_mapM hmap _ (Record.get_eq_some.mp hentry)
    rwa [Except.ok.inj (hkey.symm.trans hresult)]

/-- Where the tree has the key of the secret, verifying against it changes nothing. -/
theorem toPrivateKey_verified {tree : RatchetTree} {n : ℤ} {secret : Bytes} {node : Node}
    {keys : cs.hpke.PrivateKey × Bytes} (hkeys : secretKeys cs secret = .ok keys)
    (hnode : nodeAt tree n = some node) (hpublic : getHpkePublicKey node = keys.2) :
    toPrivateKey cs (some tree) (n, secret) = toPrivateKey cs none (n, secret) := by
  obtain ⟨nodeSecret, hsecret, hkeys⟩ := bind_eq_ok.mp hkeys
  obtain ⟨⟨privateKey, publicKey⟩, hpair, hkeys⟩ := bind_eq_ok.mp hkeys
  obtain ⟨derived, hderived, hkeys⟩ := bind_eq_ok.mp hkeys
  obtain rfl := Except.ok.inj hkeys
  have hequal : constantTimeEqual derived derived = true := constantTimeEqual_iff.mpr rfl
  simp only [toPrivateKey, hsecret, ok_bind, hpair, Option.bind_some, hnode, hderived, hpublic,
    hequal, Bool.not_true, Bool.false_eq_true, if_false, Option.bind_none]

theorem toPrivateKey_privateKeyOf {n : ℤ} {secret key : Bytes} {keys : cs.hpke.PrivateKey × Bytes}
    (hpairs : DerivesKeyPairs cs.hpke) (hkeys : secretKeys cs secret = .ok keys)
    (h : toPrivateKey cs none (n, secret) = .ok (n, key)) : PrivateKeyOf cs.hpke key keys.2 := by
  obtain ⟨nodeSecret, hsecret, hkeys⟩ := bind_eq_ok.mp hkeys
  obtain ⟨⟨privateKey, publicKey⟩, hpair, hkeys⟩ := bind_eq_ok.mp hkeys
  obtain ⟨derived, hderived, hkeys⟩ := bind_eq_ok.mp hkeys
  obtain rfl := Except.ok.inj hkeys
  simp only [toPrivateKey, hsecret, ok_bind, hpair, Option.bind_none] at h
  obtain ⟨exported, hexported, h⟩ := bind_eq_ok.mp h
  obtain ⟨-, rfl⟩ := Prod.mk.inj (Except.ok.inj h)
  exact hpairs _ _ _ _ _ hpair hexported hderived

end

/-! ## Leaves that were just added -/

/-- Every parent over the leaf lists it as unmerged. -/
def NewLeaf (t : RatchetTree) (i : ℕ) : Prop :=
  ∀ k p, slot t k (i / 2 ^ k) = some (.parent p) → i ∈ p.unmergedLeaves

section
variable {t t' : RatchetTree} {i i' : ℕ} {l : LeafNode}

theorem Added.newLeaf (h : Added t t' i l) : NewLeaf t' i := by
  intro k p hp
  obtain ⟨p₀, -, -, -, hunmerged⟩ := h.parent hp
  rw [hunmerged, if_pos rfl]
  exact List.mem_append_right _ (List.mem_singleton_self i)

theorem NewLeaf.added (h : NewLeaf t i) (hadd : Added t t' i' l) : NewLeaf t' i := by
  intro k p hp
  obtain ⟨p₀, hp₀, -, -, hunmerged⟩ := hadd.parent hp
  rw [hunmerged]
  split_ifs
  · exact List.mem_append_left _ (h k p₀ hp₀)
  · exact h k p₀ hp₀

/-- What the Adds of a commit have made of the tree `start` so far. -/
structure NewLeaves (start : RatchetTree) (acc : RatchetTree × List (ℕ × KeyPackage)) : Prop where
  tree : Reachable acc.1
  kept : ∀ v, slot start 0 v ≠ none → slot acc.1 0 v ≠ none
  blank : ∀ a ∈ acc.2, slot start 0 a.1 = none
  leaf : ∀ a ∈ acc.2, slot acc.1 0 a.1 = some (.leaf a.2.leafNode.leaf)
  unmerged : ∀ a ∈ acc.2, NewLeaf acc.1 a.1

theorem newLeaves_nil (h : Reachable t) : NewLeaves t (t, []) where
  tree := h
  kept _ hv := hv
  blank _ ha := (List.not_mem_nil ha).elim
  leaf _ ha := (List.not_mem_nil ha).elim
  unmerged _ ha := (List.not_mem_nil ha).elim

variable {cs : CiphersuiteImpl} {m : TreeMutations}

/-- An Add fills a blank place, and is listed with it. -/
theorem applyAdd_eq_ok {acc acc' : RatchetTree × List (ℕ × KeyPackage)} {add : Sent KeyPackage}
    (ht : Reachable acc.1) (h : applyAdd cs m acc add = .ok acc') :
    Reachable acc'.1 ∧ ∃ i, Added acc.1 acc'.1 i add.proposal.leafNode.leaf ∧
      acc'.2 = acc.2 ++ [(i, add.proposal)] := by
  obtain ⟨_, -, h⟩ := bind_eq_ok.mp h
  obtain ⟨_, -, h⟩ := bind_eq_ok.mp h
  obtain ⟨⟨tree, leafNodeIndex⟩, hfill, h⟩ := bind_eq_ok.mp h
  obtain ⟨leafIndex, hleaf, h⟩ := bind_eq_ok.mp h
  obtain rfl := Except.ok.inj h
  obtain ⟨-, d, hg⟩ := ht.invariant
  obtain ⟨i, d', rfl, -, hadded, -⟩ := addLeafNode_added hg hfill
  rw [nodeToLeafIndex_coord] at hleaf
  obtain rfl := Except.ok.inj hleaf
  exact ⟨ht.addLeafNode hfill, i, hadded, rfl⟩

theorem NewLeaves.applyAdd {start : RatchetTree} {acc acc' : RatchetTree × List (ℕ × KeyPackage)}
    {add : Sent KeyPackage} (h : NewLeaves start acc) (hadd : applyAdd cs m acc add = .ok acc') :
    NewLeaves start acc' := by
  obtain ⟨htree, i, hadded, hlisted⟩ := applyAdd_eq_ok h.tree hadd
  obtain ⟨tree, listed⟩ := acc'
  obtain rfl : listed = acc.2 ++ [(i, add.proposal)] := hlisted
  refine ⟨htree, fun v hv => hadded.leaf_ne_none (h.kept v hv), ?_, ?_, ?_⟩
  all_goals
    intro a ha
    rcases List.mem_append.mp ha with hold | hnew
  · exact h.blank a hold
  · rw [List.mem_singleton.mp hnew]
    by_contra hne
    exact h.kept _ hne hadded.blank
  · have hkept := h.leaf a hold
    dsimp only
    rw [hadded.leaf, if_neg, hkept]
    rintro rfl
    rw [hadded.blank] at hkept
    cases hkept
  · rw [List.mem_singleton.mp hnew]
    dsimp only
    rw [hadded.leaf, if_pos rfl]
  · exact (h.unmerged a hold).added hadded
  · rw [List.mem_singleton.mp hnew]
    exact hadded.newLeaf

theorem Reachable.applyChanges {changes : List LeafChange} (ht : Reachable t)
    (h : applyChanges t changes = .ok t') : Reachable t' := by
  refine foldlM_inv (P := Reachable) ht (fun c _ b b' hb hc => ?_) h
  cases c with
  | update leafNode leafIndex => exact hb.updateLeafNode hc
  | remove leafIndex => exact hb.removeLeafNode hc

variable {state : ClientState cs.signature} {allProposals : List ProposalWithSender}
  {grouped : Proposals} {own : ℕ} {pskSearch : PskIndex} {sentByClient : Bool} {currentTime : ℤ}
  {result : ApplyProposalsResult}

/-- The leaves a member's commit adds are new, and none takes the committer's place. -/
theorem applyMemberProposals_newLeaves (ht : Reachable state.ratchetTree)
    (hown : slot state.ratchetTree 0 own ≠ none)
    (h : applyMemberProposals cs state allProposals grouped (some own) pskSearch sentByClient
      currentTime = .ok result) :
    ∃ start, NewLeaves start (result.tree, addedLeafNodes result.additionalResult) ∧
      slot start 0 own ≠ none := by
  obtain ⟨tree, addedLeafNodes, _, _, hvalid, hmutated, rfl⟩ := applyMemberProposals_eq_ok h
  have hvalid := validateProposals_eq_ok hvalid
  obtain ⟨start, hchanges, hadds⟩ := applyTreeMutations_changes hmutated
  refine ⟨start, foldlM_inv (P := NewLeaves start) (newLeaves_nil (ht.applyChanges hchanges))
    (fun _ _ _ _ hb hc => hb.applyAdd hc) hadds, ?_⟩
  have hslots := congrFun (applyChanges_leafSlots hchanges).2 own
  rw [afterChanges_of_notMem] at hslots
  · exact fun hnone => hown (hslots.symm.trans hnone)
  · -- the checks refuse an Update and a Remove of the committer's own leaf
    intro hmem
    obtain ⟨c, hc, htarget⟩ := List.mem_map.mp hmem
    rcases List.mem_append.mp hc with hc | hc
    · obtain ⟨u, hu, rfl⟩ := List.mem_map.mp hc
      obtain ⟨i, hi⟩ := applyTreeMutations_senders hmutated u hu
      refine hvalid.ownUpdate u hu i hi ?_
      rw [← htarget, LeafChange.target, hi]
      rfl
    · obtain ⟨r, hr, rfl⟩ := List.mem_map.mp hc
      exact hvalid.ownRemove r hr (congrArg some htarget.symm)

/-- What a commit adds comes of a member's proposals. -/
theorem applyProposals_adds {proposals : List ProposalOrRef} {newMemberLeafNode : Option LeafNode}
    {senderType : SenderTypeName} {committerLeafIndex : Option ℕ} {a : ℕ × KeyPackage}
    (h : applyProposals cs state proposals committerLeafIndex pskSearch sentByClient newMemberLeafNode
      senderType currentTime = .ok result) (ha : a ∈ addedLeafNodes result.additionalResult) :
    ∃ allProposals grouped, applyMemberProposals cs state allProposals grouped committerLeafIndex
      pskSearch sentByClient currentTime = .ok result := by
  obtain ⟨allProposals, -, -, h⟩ := applyProposals_eq_ok h
  obtain ⟨-, h⟩ | ⟨reinit, h⟩ | h := applyGroupedProposals_cases h
  · obtain ⟨-, _, _, _, hdata⟩ := applyExternalProposals_eq_ok h
    rw [hdata] at ha
    cases ha
  · rw [(applyReinit_eq_ok h).2] at ha
    cases ha
  · exact ⟨_, _, h⟩

theorem applyMemberProposals_psk {committerLeafIndex : Option ℕ}
    (h : applyMemberProposals cs state allProposals grouped committerLeafIndex pskSearch sentByClient
      currentTime = .ok result) :
    accumulatePskSecret (grouped.psk.map Sent.proposal) pskSearch cs (List.replicate cs.kdf.size 0) =
      .ok (result.pskSecret, result.pskIds) := by
  obtain ⟨proposalsError, -, h⟩ := bind_eq_ok.mp h
  obtain ⟨_, -, h⟩ := bind_eq_ok.mp h
  obtain ⟨⟨tree, addedLeafNodes⟩, -, h⟩ := bind_eq_ok.mp h
  obtain ⟨⟨pskSecret, pskIds⟩, hpsk, h⟩ := bind_eq_ok.mp h
  rw [hpsk, ← Except.ok.inj h]

theorem applyProposals_newLeaves {proposals : List ProposalOrRef} {newMemberLeafNode : Option LeafNode}
    {senderType : SenderTypeName} {a : ℕ × KeyPackage} (ht : Reachable state.ratchetTree)
    (hown : slot state.ratchetTree 0 own ≠ none)
    (h : applyProposals cs state proposals (some own) pskSearch sentByClient newMemberLeafNode
      senderType currentTime = .ok result) (ha : a ∈ addedLeafNodes result.additionalResult) :
    ∃ start, NewLeaves start (result.tree, addedLeafNodes result.additionalResult) ∧
      slot start 0 own ≠ none := by
  obtain ⟨_, _, h⟩ := applyProposals_adds h ha
  exact applyMemberProposals_newLeaves ht hown h

end

end WebcryptoMls
