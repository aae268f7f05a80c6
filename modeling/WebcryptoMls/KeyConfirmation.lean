import WebcryptoMls.EpochRuns
import WebcryptoMls.HashBinding
import WebcryptoMls.LeafSecrets

/-!
# Key confirmation

A state's confirmation tag is the MAC of its transcript under a key of its epoch, and the
keys of an epoch are derived from the group context, which holds the tree hash. Where the
primitives do not collide, clients with one tag therefore hold one group: nothing else of how
they came into the epoch, or of what they were sent before, matters.
-/
namespace WebcryptoMls
open InOrder (index size Below)
open PrefixCode

/-! ## Trees with one hash -/

/-- The nodes are the same on the wire. -/
def SameNode (n n' : Option Node) : Prop :=
  encodeOptional encodeNode n = encodeOptional encodeNode n' ∧ n.isNone = n'.isNone

theorem SameNode.refl (n : Option Node) : SameNode n n := ⟨rfl, rfl⟩

theorem sameNode_leaf {o o' : Option LeafNode} {x : Bytes}
    (h : encodeOptional encodeLeafNode o = .ok x) (h' : encodeOptional encodeLeafNode o' = .ok x) :
    SameNode (o.map Node.leaf) (o'.map Node.leaf) := by
  cases o with
  | some leaf =>
    obtain ⟨leaf', rfl, heq⟩ := encodeOptional_some_inj h h'
    simp [SameNode, encodeOptional, encodeNode, heq]
  | none =>
    cases o' with
    | none => exact .refl _
    | some leaf =>
      obtain ⟨leaf', hnone, -⟩ := encodeOptional_some_inj h' h
      cases hnone

theorem encodeLeafNodeHashInput_leafNode {a b : LeafNodeHashInput} {x : Bytes}
    (ha : encodeLeafNodeHashInput a = .ok x) (hb : encodeLeafNodeHashInput b = .ok x) :
    SameNode (a.leafNode.map Node.leaf) (b.leafNode.map Node.leaf) := by
  have hparts := (concat_parts (r := []) (s := []) prefixFree_leafHashInputParts ha hb rfl).2
  obtain ⟨u, hu⟩ := concat_part_ok ha
    (e := contramapEncoder (encodeOptional encodeLeafNode) LeafNodeHashInput.leafNode) (by simp)
  have hv := hparts _ (show contramapEncoder (encodeOptional encodeLeafNode)
    LeafNodeHashInput.leafNode ∈ _ by simp)
  exact sameNode_leaf hu (hv.symm.trans hu)

/-- Where no two hashed inputs collide, subtrees of one place with one hash are of one level and
hold the same nodes. -/
theorem sameNode_of_hash_eq {h : Hash} {S : Set Bytes} (hinj : Set.InjOn h.digest S) {s s' : Places}
    {m m' c : ℕ} {x : Bytes} (hx : subtreeHashAt s h m c = .ok x)
    (hx' : subtreeHashAt s' h m' c = .ok x) (hS : InputsIn S s h m c) (hS' : InputsIn S s' h m' c) :
    m = m' ∧ ∀ k j, Below k j m c → SameNode (s k j) (s' k j) := by
  induction m generalizing m' c x with
  | zero =>
    obtain ⟨y, hy, hyx⟩ := subtreeHashAt_eq_ok.mp hx
    obtain ⟨y', hy', hyx'⟩ := subtreeHashAt_eq_ok.mp hx'
    obtain rfl : y = y' := hinj (hS 0 c y (InOrder.below_refl _ _) hy)
      (hS' m' c y' (InOrder.below_refl _ _) hy') (hyx.trans hyx'.symm)
    obtain ⟨o, ho, henc⟩ := subtreeInputAt_zero_eq_ok.mp hy
    cases m' with
    | succ m' =>
      obtain ⟨o', l, r, -, -, -, henc'⟩ := subtreeInputAt_succ_eq_ok.mp hy'
      exact absurd henc' (encodeLeafNodeHashInput_ne henc)
    | zero =>
      obtain ⟨o', ho', henc'⟩ := subtreeInputAt_zero_eq_ok.mp hy'
      refine ⟨rfl, fun k j hb => ?_⟩
      obtain ⟨rfl, rfl⟩ := InOrder.below_zero.mp hb
      rw [ho, ho']
      exact encodeLeafNodeHashInput_leafNode henc henc'
  | succ m ih =>
    obtain ⟨y, hy, hyx⟩ := subtreeHashAt_eq_ok.mp hx
    obtain ⟨y', hy', hyx'⟩ := subtreeHashAt_eq_ok.mp hx'
    obtain rfl : y = y' := hinj (hS _ c y (InOrder.below_refl _ _) hy)
      (hS' m' c y' (InOrder.below_refl _ _) hy') (hyx.trans hyx'.symm)
    obtain ⟨o, l, r, ho, hl, hr, henc⟩ := subtreeInputAt_succ_eq_ok.mp hy
    cases m' with
    | zero =>
      obtain ⟨o', -, henc'⟩ := subtreeInputAt_zero_eq_ok.mp hy'
      exact absurd henc (encodeLeafNodeHashInput_ne henc')
    | succ m' =>
      obtain ⟨o', l', r', ho', hl', hr', henc'⟩ := subtreeInputAt_succ_eq_ok.mp hy'
      have heq := encodeParentNodeHashInput_inj henc henc'
      rw [ParentNodeHashInput.mk.injEq] at heq
      obtain ⟨rfl, rfl, rfl⟩ := heq
      obtain ⟨rfl, hleft⟩ := ih hl hl' (hS.mono (InOrder.below_left m c))
        (hS'.mono (InOrder.below_left m' c))
      obtain ⟨-, hright⟩ := ih hr hr' (hS.mono (InOrder.below_right m c))
        (hS'.mono (InOrder.below_right m c))
      refine ⟨rfl, fun k j hb => ?_⟩
      rcases InOrder.below_succ.mp hb with ⟨rfl, rfl⟩ | hb | hb
      · rw [ho, ho']
        exact .refl _
      · exact hleft k j hb
      · exact hright k j hb

/-- Places that are the same on the wire are encoded alike. -/
theorem encodeRatchetTree_congr {t t' : RatchetTree} (h : List.Forall₂ SameNode t t') :
    encodeRatchetTree t = encodeRatchetTree t' := by
  have hstrip : List.Forall₂ SameNode (stripBlankNodes t) (stripBlankNodes t') := by
    unfold stripBlankNodes
    rw [List.rdropWhile, List.rdropWhile, List.forall₂_reverse_iff]
    have hreverse := List.forall₂_reverse_iff.mpr h
    generalize t.reverse = l, t'.reverse = l' at hreverse
    induction hreverse with
    | nil => exact .nil
    | @cons n n' l l' hn hl ih =>
      rw [List.dropWhile_cons, List.dropWhile_cons, hn.2]
      split_ifs
      · exact ih
      · exact .cons hn hl
  have hitems : items (encodeOptional encodeNode) (stripBlankNodes t) =
      items (encodeOptional encodeNode) (stripBlankNodes t') := by
    generalize stripBlankNodes t = l, stripBlankNodes t' = l' at hstrip
    rw [items, items]
    suffices hparts : l.mapM (encodeOptional encodeNode) = l'.mapM (encodeOptional encodeNode) by
      rw [hparts]
    induction hstrip with
    | nil => rfl
    | cons hn _ ih => rw [List.mapM_cons, List.mapM_cons, hn.1, ih]
  rw [encodeRatchetTree, contramapEncoder, contramapEncoder, encodeVarLenType, encodeVarLenType,
    hitems]

/-- What is hashed for the tree. -/
def treeInputs (h : Hash) (t : RatchetTree) : Set Bytes :=
  {y | ∃ k j, index k j < t.length ∧ subtreeInputAt (slot t) h k j = .ok y}

/-- The array has the size of a full tree that the hash can walk. -/
def HashedWidth (t : RatchetTree) : Prop := ∃ d ≤ 30, t.length = size d

theorem encodeRatchetTree_of_hash_eq {h : Hash} {t t' : RatchetTree} {x : Bytes}
    (hinj : Set.InjOn h.digest (treeInputs h t ∪ treeInputs h t')) (ht : HashedWidth t)
    (ht' : HashedWidth t') (hx : treeHashRoot t h = .ok x) (hx' : treeHashRoot t' h = .ok x) :
    encodeRatchetTree t = encodeRatchetTree t' := by
  obtain ⟨d, hd, hlen⟩ := ht
  obtain ⟨d', hd', hlen'⟩ := ht'
  rw [treeHashRoot_coord hlen hd] at hx
  rw [treeHashRoot_coord hlen' hd'] at hx'
  have hroot (d : ℕ) : index d 0 < size d := InOrder.index_lt_size.mpr ⟨le_rfl, by simp⟩
  have hin : InputsIn (treeInputs h t ∪ treeInputs h t') (slot t) h d 0 := fun k j y hb hy =>
    .inl ⟨k, j, hlen ▸ Below.index_lt_size hb (hroot d), hy⟩
  have hin' : InputsIn (treeInputs h t ∪ treeInputs h t') (slot t') h d' 0 := fun k j y hb hy =>
    .inr ⟨k, j, hlen' ▸ Below.index_lt_size hb (hroot d'), hy⟩
  obtain ⟨rfl, hsame⟩ := sameNode_of_hash_eq hinj hx hx' hin hin'
  refine encodeRatchetTree_congr
    (List.forall₂_of_length_eq_of_get (hlen.trans hlen'.symm) fun n hn hn' => ?_)
  obtain ⟨k, j, rfl⟩ := InOrder.exists_index n
  have hlt := InOrder.index_lt_size.mp (hlen ▸ hn)
  have hnode := hsame k j ⟨hlt.1, Nat.div_eq_of_lt hlt.2⟩
  rw [slot_eq_getElem?, slot_eq_getElem?, List.getElem?_eq_getElem hn,
    List.getElem?_eq_getElem hn'] at hnode
  exact hnode

/-! ## The keys of an epoch -/

theorem Expansion.eq_of_run {kdf : Kdf} {inputs : Set (Bytes × Bytes)} {e e' : Expansion}
    {out : Bytes} (hfree : CollisionFree (fun x : Bytes × Bytes => kdf.expand x.1 x.2 kdf.size) inputs)
    (he : ∀ x, e.input kdf = .ok x → x ∈ inputs) (he' : ∀ x, e'.input kdf = .ok x → x ∈ inputs)
    (h : e.run kdf = .ok out) (h' : e'.run kdf = .ok out) : e = e' := by
  obtain ⟨x, hx, hout⟩ := Expansion.run_eq_ok.mp h
  obtain ⟨x', hx', hout'⟩ := Expansion.run_eq_ok.mp h'
  obtain rfl := hfree x (he x hx) x' (he' x' hx') out hout hout'
  exact Expansion.input_inj hx hx'

theorem deriveEpochKeys_confirm {epochSecret : Bytes} {kdf : Kdf} {derived : DerivedKeySchedule}
    (h : deriveEpochKeys epochSecret kdf = .ok derived) :
    deriveSecret epochSecret "confirm" kdf = .ok derived.keySchedule.confirmationKey := by
  obtain ⟨newInitSecret, -, h⟩ := bind_eq_ok.mp h
  obtain ⟨senderDataSecret, -, h⟩ := bind_eq_ok.mp h
  obtain ⟨encryptionSecret, -, h⟩ := bind_eq_ok.mp h
  obtain ⟨exporterSecret, -, h⟩ := bind_eq_ok.mp h
  obtain ⟨externalSecret, -, h⟩ := bind_eq_ok.mp h
  obtain ⟨confirmationKey, hconfirm, h⟩ := bind_eq_ok.mp h
  obtain ⟨membershipKey, -, h⟩ := bind_eq_ok.mp h
  obtain ⟨resumptionPsk, -, h⟩ := bind_eq_ok.mp h
  obtain ⟨epochAuthenticator, -, h⟩ := bind_eq_ok.mp h
  obtain ⟨applicationExportSecret, -, h⟩ := bind_eq_ok.mp h
  rw [← Except.ok.inj h]
  exact hconfirm

/-- What a client computed of its epoch: the keys from the context, the tag from the keys, and
the hash of the tree. -/
structure EpochTrace (cs : CiphersuiteImpl) (state : ClientState cs.signature) where
  extracted : Bytes
  encodedContext : Bytes
  epochSecret : Bytes
  encryptionSecret : Bytes
  context : encodeGroupContext state.groupContext = .ok encodedContext
  epoch : expandWithLabel extracted "epoch" encodedContext cs.kdf.size cs.kdf = .ok epochSecret
  keys : deriveEpochKeys epochSecret cs.kdf = .ok {
    keySchedule := state.keySchedule
    encryptionSecret := encryptionSecret }
  tag : state.confirmationTag = createConfirmationTag state.keySchedule.confirmationKey
    state.groupContext.confirmedTranscriptHash cs.hash
  treeHash : treeHashRoot state.ratchetTree cs.hash = .ok state.groupContext.treeHash

section
variable {cs : CiphersuiteImpl} {state later : ClientState cs.signature}

namespace EpochTrace

/-- The expansions between the context and the tag. -/
def expansions (trace : EpochTrace cs state) : List Expansion :=
  [⟨trace.extracted, "epoch", trace.encodedContext⟩, ⟨trace.epochSecret, "confirm", []⟩]

/-- What they give the KDF. -/
def expandInputs (trace : EpochTrace cs state) : Set (Bytes × Bytes) :=
  {x | ∃ e ∈ trace.expansions, e.input cs.kdf = .ok x}

/-- What the tag is the MAC of. -/
def macInput (_ : EpochTrace cs state) : Bytes × Bytes :=
  (state.keySchedule.confirmationKey, state.groupContext.confirmedTranscriptHash)

variable {a b : ClientState cs.signature}

/-- Nothing that was computed for the one state collides with what was for the other. -/
structure NoCollision (α : EpochTrace cs a) (β : EpochTrace cs b) : Prop where
  mac : CollisionFree (fun x : Bytes × Bytes => .ok (cs.hash.mac x.1 x.2)) {α.macInput, β.macInput}
  expand : CollisionFree (fun x : Bytes × Bytes => cs.kdf.expand x.1 x.2 cs.kdf.size)
    (α.expandInputs ∪ β.expandInputs)
  digest : Set.InjOn cs.hash.digest (treeInputs cs.hash a.ratchetTree ∪
    treeInputs cs.hash b.ratchetTree)

/-- The group the clients are in is one, as it is written on the wire. -/
structure Agree (a b : ClientState cs.signature) : Prop where
  groupContext : encodeGroupContext a.groupContext = encodeGroupContext b.groupContext
  keySchedule : a.keySchedule = b.keySchedule
  ratchetTree : HashedWidth a.ratchetTree → HashedWidth b.ratchetTree →
    encodeRatchetTree a.ratchetTree = encodeRatchetTree b.ratchetTree

theorem agree {α : EpochTrace cs a} {β : EpochTrace cs b} (h : NoCollision α β)
    (htag : a.confirmationTag = b.confirmationTag) : Agree a b := by
  have hmac : α.macInput = β.macInput :=
    h.mac _ (.inl rfl) _ (.inr rfl) _ rfl
      (congrArg Except.ok (β.tag.symm.trans (htag.symm.trans α.tag)))
  have hkey : a.keySchedule.confirmationKey = b.keySchedule.confirmationKey :=
    congrArg Prod.fst hmac
  have hconfirm : (⟨α.epochSecret, "confirm", []⟩ : Expansion) = ⟨β.epochSecret, "confirm", []⟩ := by
    refine Expansion.eq_of_run h.expand (fun x hx => .inl ⟨_, by simp [expansions], hx⟩)
      (fun x hx => .inr ⟨_, by simp [expansions], hx⟩) (deriveEpochKeys_confirm α.keys) ?_
    dsimp only
    rw [hkey]
    exact deriveEpochKeys_confirm β.keys
  have hsecret : α.epochSecret = β.epochSecret := congrArg Expansion.secret hconfirm
  have hepoch : (⟨α.extracted, "epoch", α.encodedContext⟩ : Expansion) =
      ⟨β.extracted, "epoch", β.encodedContext⟩ :=
    Expansion.eq_of_run h.expand (fun x hx => .inl ⟨_, by simp [expansions], hx⟩)
      (fun x hx => .inr ⟨_, by simp [expansions], hx⟩) α.epoch (hsecret ▸ β.epoch)
  have hencoded : α.encodedContext = β.encodedContext := congrArg Expansion.context hepoch
  have hcontext : encodeGroupContext a.groupContext = encodeGroupContext b.groupContext := by
    rw [α.context, β.context, hencoded]
  refine ⟨hcontext, ?_, fun ha hb => ?_⟩
  · have hkeys := α.keys.symm.trans (hsecret ▸ β.keys)
    exact congrArg DerivedKeySchedule.keySchedule (Except.ok.inj hkeys)
  · have hdecoded := (decodeGroupContext_encoded α.context).symm.trans
      (hencoded ▸ decodeGroupContext_encoded β.context)
    have htree : a.groupContext.treeHash = b.groupContext.treeHash := by
      obtain ⟨heq, -⟩ := Prod.mk.inj (Option.some.inj (Except.ok.inj hdecoded))
      change a.groupContext.asDecoded.treeHash = b.groupContext.asDecoded.treeHash
      rw [heq]
    exact encodeRatchetTree_of_hash_eq h.digest ha hb α.treeHash (htree ▸ β.treeHash)

end EpochTrace
/-! ## How an epoch is entered -/

/-- The keys are those of the context. -/
def DerivedFor (kdf : Kdf) (groupContext : GroupContext) (derived : DerivedKeySchedule) : Prop :=
  ∃ extracted encodedContext epochSecret,
    encodeGroupContext groupContext = .ok encodedContext ∧
    expandWithLabel extracted "epoch" encodedContext kdf.size kdf = .ok epochSecret ∧
    deriveEpochKeys epochSecret kdf = .ok derived

theorem deriveKeySchedule_derivedFor {joinerSecret pskSecret : Bytes} {groupContext : GroupContext}
    {kdf : Kdf} {derived : DerivedKeySchedule}
    (h : deriveKeySchedule joinerSecret pskSecret groupContext kdf = .ok derived) :
    DerivedFor kdf groupContext derived := by
  obtain ⟨epochSecret, hepoch, h⟩ := bind_eq_ok.mp h
  obtain ⟨extracted, -, hepoch⟩ := bind_eq_ok.mp hepoch
  obtain ⟨encodedContext, hencoded, hepoch⟩ := bind_eq_ok.mp hepoch
  exact ⟨extracted, encodedContext, epochSecret, hencoded, hepoch, h⟩

theorem initializeEpoch_derivedFor {initSecret commitSecret pskSecret : Bytes}
    {groupContext : GroupContext} {kdf : Kdf} {epochSecrets : EpochSecrets}
    (h : initializeEpoch initSecret commitSecret groupContext pskSecret kdf = .ok epochSecrets) :
    DerivedFor kdf groupContext epochSecrets.toDerivedKeySchedule := by
  obtain ⟨joinerSecret, -, h⟩ := bind_eq_ok.mp h
  obtain ⟨welcomeSecret, -, h⟩ := bind_eq_ok.mp h
  obtain ⟨derived, hderived, h⟩ := bind_eq_ok.mp h
  rw [← Except.ok.inj h]
  exact deriveKeySchedule_derivedFor hderived

theorem nonempty_epochTrace {derived : DerivedKeySchedule}
    (hderived : DerivedFor cs.kdf state.groupContext derived)
    (hkeys : state.keySchedule = derived.keySchedule)
    (htag : state.confirmationTag = createConfirmationTag state.keySchedule.confirmationKey
      state.groupContext.confirmedTranscriptHash cs.hash)
    (htree : treeHashRoot state.ratchetTree cs.hash = .ok state.groupContext.treeHash) :
    Nonempty (EpochTrace cs state) := by
  obtain ⟨extracted, encodedContext, epochSecret, hcontext, hepoch, hderived⟩ := hderived
  refine ⟨⟨extracted, encodedContext, epochSecret, derived.encryptionSecret, hcontext, hepoch, ?_,
    htag, htree⟩⟩
  rw [hderived, hkeys]

/-- The two are in one epoch of one group. -/
structure SharesEpoch (state later : ClientState cs.signature) : Prop where
  groupContext : later.groupContext = state.groupContext
  ratchetTree : later.ratchetTree = state.ratchetTree
  keySchedule : later.keySchedule = state.keySchedule
  confirmationTag : later.confirmationTag = state.confirmationTag

/-- What was computed for the one is right for the other. -/
def EpochTrace.shared (trace : EpochTrace cs state) (h : SharesEpoch state later) :
    EpochTrace cs later where
  extracted := trace.extracted
  encodedContext := trace.encodedContext
  epochSecret := trace.epochSecret
  encryptionSecret := trace.encryptionSecret
  context := by rw [h.groupContext, trace.context]
  epoch := trace.epoch
  keys := by rw [h.keySchedule, trace.keys]
  tag := by rw [h.confirmationTag, h.keySchedule, h.groupContext, trace.tag]
  treeHash := by rw [h.ratchetTree, h.groupContext, trace.treeHash]

theorem StaysInEpoch.sharesEpoch (h : StaysInEpoch state later) : SharesEpoch state later :=
  ⟨h.groupContext, h.ratchetTree, h.keySchedule, h.confirmationTag⟩

/-- A path that is created comes with the hash of its tree. -/
theorem createUpdatePath_treeHash {t : RatchetTree} {i : ℕ} {gc : GroupContext}
    {key : cs.signature.SignatureSecretKey} {coins : PathCoins} {excludeNodes : List ℤ}
    {patch : ResolvedLeafNodePatch cs.signature} {path : CreatedPath cs}
    (h : createUpdatePath t i gc cs key coins excludeNodes patch = .ok path) :
    treeHashRoot path.tree cs.hash = .ok path.treeHash := by
  simp only [createUpdatePath] at h
  split at h
  · obtain ⟨leafNodeSecret, -, h⟩ := bind_eq_ok.mp h
    obtain ⟨keyPair, -, h⟩ := bind_eq_ok.mp h
    obtain ⟨fdp, -, h⟩ := bind_eq_ok.mp h
    obtain ⟨written, -, h⟩ := bind_eq_ok.mp h
    obtain ⟨hashed, -, h⟩ := bind_eq_ok.mp h
    obtain ⟨leafParentHash, -, h⟩ := bind_eq_ok.mp h
    obtain ⟨hpkePublicKey, -, h⟩ := bind_eq_ok.mp h
    obtain ⟨updatedLeafNode, -, h⟩ := bind_eq_ok.mp h
    obtain ⟨treeHash, hhash, h⟩ := bind_eq_ok.mp h
    obtain ⟨nodes, -, h⟩ := bind_eq_ok.mp h
    rw [← Except.ok.inj h]
    exact hhash
  · cases h

theorem commitTreeHash_eq_ok {res : ApplyProposalsResult}
    {patch : Option (ResolvedLeafNodePatch cs.signature)} {coins : PathCoins} {path : CommitPath cs}
    {treeHash : Bytes} (h : createCommitPath cs state res patch coins = .ok path)
    (hhash : commitTreeHash path = .ok treeHash) : treeHashRoot path.tree cs.hash = .ok treeHash := by
  unfold createCommitPath at h
  dsimp only at h
  split at h
  · split_ifs at h
    · obtain ⟨created, hcreate, h⟩ := bind_eq_ok.mp h
      obtain rfl := Except.ok.inj h
      exact (createUpdatePath_treeHash hcreate).trans hhash
    · obtain rfl := Except.ok.inj h
      exact hhash
  · obtain ⟨created, hcreate, h⟩ := bind_eq_ok.mp h
    obtain ⟨_, -, h⟩ := bind_eq_ok.mp h
    obtain ⟨_, -, h⟩ := bind_eq_ok.mp h
    obtain rfl := Except.ok.inj h
    exact (createUpdatePath_treeHash hcreate).trans hhash

/-- What a committer signs and sends under the tag of its new epoch. -/
theorem createCommit_confirms {pskIndex : PskIndex} {options : CreateCommitOptions cs.signature}
    {coins : CommitCoins} {currentTime : ℤ} {result : CreateCommitResult cs.signature}
    (h : createCommit cs state pskIndex options coins currentTime = .ok result) :
    Nonempty (EpochTrace cs result.newState) ∧ ∃ content signature,
      protectCommit cs options.wireAsPublicMessage state options.authenticatedData content
        { signature := signature, content := .commit result.newState.confirmationTag }
        coins.reuseGuard = .ok result.commit := by
  obtain ⟨p, -, hp, hannounced⟩ := createCommit_announces h
  refine ⟨nonempty_epochTrace (initializeEpoch_derivedFor hp.epochSecrets) hp.keySchedule ?_ ?_, _, _,
    hannounced.commit⟩
  · rw [hannounced.confirmationTag, hp.keySchedule]
  · obtain ⟨_, hcontext⟩ := nextEpochContext_eq_ok hp.groupContext
    rw [hp.ratchetTree, hcontext]
    exact commitTreeHash_eq_ok hp.path hannounced.treeHash

/-- A tag is accepted only if it is the MAC. -/
def VerifiesMac (h : Hash) : Prop :=
  ∀ key tag data, h.verifyMac key tag data = true → tag = h.mac key data

theorem applyUpdatedTree_treeHash {updatedTree : RatchetTree} {privatePath : PrivateKeyPath}
    {senderLeafIndex : ℕ} {groupContext : GroupContext} {path : UpdatePath}
    {excludeNodes : List ℤ} {update : TreeUpdate}
    (h : applyUpdatedTree cs updatedTree privatePath senderLeafIndex groupContext path
      excludeNodes = .ok update) : treeHashRoot update.tree cs.hash = .ok update.treeHash := by
  obtain ⟨treeHash, hhash, h⟩ := bind_eq_ok.mp h
  obtain ⟨updated, -, h⟩ := bind_eq_ok.mp h
  rw [← Except.ok.inj h]
  exact hhash

theorem applyTreeUpdate_treeHash {path : Option UpdatePath} {sender : Sender} {tree : RatchetTree}
    {privatePath : PrivateKeyPath} {groupContext : GroupContext} {excludeNodes : List ℤ}
    {update : TreeUpdate}
    (h : applyTreeUpdate cs path sender tree privatePath groupContext excludeNodes = .ok update) :
    treeHashRoot update.tree cs.hash = .ok update.treeHash := by
  unfold applyTreeUpdate at h
  split at h
  · obtain ⟨treeHash, hhash, h⟩ := bind_eq_ok.mp h
    rw [← Except.ok.inj h]
    exact hhash
  · split at h
    · obtain ⟨updatedTree, -, h⟩ := bind_eq_ok.mp h
      exact applyUpdatedTree_treeHash h
    · obtain ⟨⟨treeWithLeafNode, leafNodeIndex⟩, -, h⟩ := bind_eq_ok.mp h
      obtain ⟨senderLeafIndex, -, h⟩ := bind_eq_ok.mp h
      obtain ⟨updatedTree, -, h⟩ := bind_eq_ok.mp h
      exact applyUpdatedTree_treeHash h

/-- A commit is followed under the tag it carries, once that is verified. -/
theorem deriveNextEpoch_confirms {content : AuthenticatedContent} {commit : Commit}
    {wireformat : WireformatName} {result : ApplyProposalsResult} {next : NextEpoch}
    (h : deriveNextEpoch cs state content commit wireformat result = .ok next) :
    content.auth.content = .commit next.confirmationTag ∧
      verifyConfirmationTag next.epochSecrets.keySchedule.confirmationKey next.confirmationTag
        next.groupContext.confirmedTranscriptHash cs.hash = true := by
  obtain ⟨update, -, h⟩ := bind_eq_ok.mp h
  split at h
  · rename_i confirmationTag htag
    obtain ⟨updatedGroupContext, -, h⟩ := bind_eq_ok.mp h
    obtain ⟨epochSecrets, -, h⟩ := bind_eq_ok.mp h
    split_ifs at h with hverified
    obtain ⟨secretTree, -, h⟩ := bind_eq_ok.mp h
    obtain rfl := Except.ok.inj h
    exact ⟨htag, by simpa using hverified⟩
  · cases h

theorem FollowedCommit.Follows.nonempty_trace {f : FollowedCommit cs} {pskIndex : PskIndex}
    {currentTime : ℤ} (hmac : VerifiesMac cs.hash) (h : f.Follows state pskIndex currentTime) :
    Nonempty (EpochTrace cs (f.newState state)) := by
  obtain ⟨hupdate, hcontext, hsecrets, -⟩ := deriveNextEpoch_eq_ok h.next
  refine nonempty_epochTrace (initializeEpoch_derivedFor hsecrets) rfl
    (hmac _ _ _ (deriveNextEpoch_confirms h.next).2) ?_
  change treeHashRoot f.next.update.tree cs.hash = .ok f.next.groupContext.treeHash
  obtain ⟨_, hnext⟩ := nextEpochContext_eq_ok hcontext
  rw [hnext]
  exact applyTreeUpdate_treeHash hupdate

theorem validateRatchetTree_treeHash {tree : RatchetTree} {groupContext : GroupContext}
    {config : LifetimeConfig} {authService : AuthenticationService} {treeHash : Bytes}
    {currentTime : ℤ}
    (h : validateRatchetTree tree groupContext config authService treeHash cs currentTime =
      .ok none) : treeHashRoot tree cs.hash = .ok treeHash := by
  unfold validateRatchetTree at h
  split_ifs at h with hsound
  · cases Except.ok.inj h
  · obtain ⟨parentHashesVerified, -, h⟩ := bind_eq_ok.mp h
    split_ifs at h
    · cases Except.ok.inj h
    · obtain ⟨computedTreeHash, hhash, h⟩ := bind_eq_ok.mp h
      split_ifs at h with hequal
      · cases Except.ok.inj h
      · have heq : treeHash = computedTreeHash := constantTimeEqual_iff.mp (by simpa using hequal)
        rw [hhash, heq]

/-- A tree that is joined through a Welcome has the hash of the GroupInfo. -/
theorem validateJoinedTree_treeHash {gi : GroupInfo} {tree : RatchetTree} {keyPackage : KeyPackage}
    {clientConfig : ClientConfig} {currentTime : ℤ}
    (h : validateJoinedTree cs gi tree keyPackage clientConfig currentTime = .ok ()) :
    treeHashRoot tree cs.hash = .ok gi.groupContext.treeHash := by
  obtain ⟨signer, -, h⟩ := bind_eq_ok.mp h
  obtain ⟨credentialVerified, -, h⟩ := bind_eq_ok.mp h
  split at h
  · cases h
  · obtain ⟨groupInfoSignatureVerified, -, h⟩ := bind_eq_ok.mp h
    split_ifs at h
    obtain ⟨treeError, htree, hnone⟩ := bind_eq_ok.mp h
    rw [throwIfDefined_eq_ok.mp hnone] at htree
    exact validateRatchetTree_treeHash htree

theorem enterGroup_confirmationTag {opened : OpenedWelcome} {tree : RatchetTree}
    {keyPackage : KeyPackage} {privateKeys : PrivateKeyPackage cs.signature}
    {clientConfig : ClientConfig} {result : JoinGroupResult cs.signature}
    (h : enterGroup cs opened tree keyPackage privateKeys clientConfig = .ok result) :
    result.state.confirmationTag = opened.groupInfo.confirmationTag := by
  obtain ⟨newLeaf, -, h⟩ := bind_eq_ok.mp h
  obtain ⟨updatedPkp, -, h⟩ := bind_eq_ok.mp h
  obtain ⟨derived, -, h⟩ := bind_eq_ok.mp h
  obtain ⟨confirmationTagVerified, -, h⟩ := bind_eq_ok.mp h
  split_ifs at h
  obtain ⟨secretTree, -, h⟩ := bind_eq_ok.mp h
  rw [← Except.ok.inj h]

theorem joinGroup_nonempty_trace {welcome : Welcome} {keyPackage : KeyPackage}
    {privateKeys : PrivateKeyPackage cs.signature} {pskSearch : PskIndex}
    {options : JoinOptions cs.signature} {currentTime : ℤ} (hmac : VerifiesMac cs.hash)
    (h : joinGroup cs welcome keyPackage privateKeys pskSearch options currentTime = .ok state) :
    Nonempty (EpochTrace cs state) := by
  obtain ⟨opened, tree, result, -, -, hvalid, henter, rfl⟩ := joinGroup_eq_ok h
  obtain ⟨newLeaf, -, henter⟩ := bind_eq_ok.mp henter
  obtain ⟨updatedPkp, -, henter⟩ := bind_eq_ok.mp henter
  obtain ⟨derived, hderived, henter⟩ := bind_eq_ok.mp henter
  obtain ⟨verified, hverified, henter⟩ := bind_eq_ok.mp henter
  split_ifs at henter with htag
  obtain ⟨secretTree, -, henter⟩ := bind_eq_ok.mp henter
  obtain rfl := Except.ok.inj henter
  refine nonempty_epochTrace (deriveKeySchedule_derivedFor hderived) rfl ?_
    (validateJoinedTree_treeHash hvalid)
  obtain ⟨epochSecret, hepoch, hkeys⟩ := bind_eq_ok.mp hderived
  obtain ⟨epochSecret', hepoch', hverified⟩ := bind_eq_ok.mp hverified
  obtain rfl := Except.ok.inj (hepoch.symm.trans hepoch')
  obtain ⟨key, hkey, hverified⟩ := bind_eq_ok.mp hverified
  obtain rfl := Except.ok.inj (hkey.symm.trans (deriveEpochKeys_confirm hkeys))
  have hverify := Except.ok.inj hverified
  exact hmac _ _ _ (hverify.trans (by simpa using htag))

theorem joinGroupExternal_confirms {groupInfo : GroupInfo} {keyPackage : KeyPackage}
    {privateKeys : PrivateKeyPackage cs.signature} {resync : Bool} {tree : Option RatchetTree}
    {clientConfig : ClientConfig} {authenticatedData : Bytes} {coins : ExternalCoins}
    {currentTime : ℤ} {joined : ExternalJoin cs.signature}
    (h : joinGroupExternal cs groupInfo keyPackage privateKeys resync tree clientConfig
      authenticatedData coins currentTime = .ok joined) :
    Nonempty (EpochTrace cs joined.newState) ∧ ∃ content : AuthenticatedContent,
      protectPublicMessage joined.newState.keySchedule.membershipKey joined.newState.groupContext
        content cs = .ok joined.publicMessage ∧
      content.auth.content = .commit joined.newState.confirmationTag := by
  obtain ⟨externalPub, -, h⟩ := bind_eq_ok.mp h
  obtain ⟨exported, -, h⟩ := bind_eq_ok.mp h
  obtain ⟨ratchetTree, -, h⟩ := bind_eq_ok.mp h
  obtain ⟨former, -, h⟩ := bind_eq_ok.mp h
  obtain ⟨updatedTree, -, h⟩ := bind_eq_ok.mp h
  obtain ⟨⟨treeWithNewLeaf, newLeafNodeIndex⟩, -, h⟩ := bind_eq_ok.mp h
  obtain ⟨newLeafIndex, -, h⟩ := bind_eq_ok.mp h
  obtain ⟨path, hpath, h⟩ := bind_eq_ok.mp h
  obtain ⟨pathKeys, -, h⟩ := bind_eq_ok.mp h
  obtain ⟨exportedLeafKey, -, h⟩ := bind_eq_ok.mp h
  obtain ⟨commitSecret, -, h⟩ := bind_eq_ok.mp h
  obtain ⟨signed, -, h⟩ := bind_eq_ok.mp h
  obtain ⟨groupContext, hcontext, h⟩ := bind_eq_ok.mp h
  obtain ⟨epochSecrets, hsecrets, h⟩ := bind_eq_ok.mp h
  obtain ⟨secretTree, -, h⟩ := bind_eq_ok.mp h
  obtain ⟨msg, hmsg, h⟩ := bind_eq_ok.mp h
  obtain rfl := Except.ok.inj h
  refine ⟨nonempty_epochTrace (initializeEpoch_derivedFor hsecrets) rfl rfl ?_, _, hmsg, rfl⟩
  obtain ⟨_, rfl⟩ := nextEpochContext_eq_ok hcontext
  exact createUpdatePath_treeHash hpath

/-! ## States of an epoch -/

/-- The client came into an epoch, through a Welcome, from outside, or by a commit it created
or followed, and took any steps since. -/
inductive InEpoch (cs : CiphersuiteImpl) : ClientState cs.signature → Prop
  | joined {welcome : Welcome} {keyPackage : KeyPackage}
      {privateKeys : PrivateKeyPackage cs.signature} {pskSearch : PskIndex}
      {options : JoinOptions cs.signature} {currentTime : ℤ} {state : ClientState cs.signature}
      (joined : joinGroup cs welcome keyPackage privateKeys pskSearch options currentTime =
        .ok state) : InEpoch cs state
  | joinedExternally {groupInfo : GroupInfo} {keyPackage : KeyPackage}
      {privateKeys : PrivateKeyPackage cs.signature} {resync : Bool} {tree : Option RatchetTree}
      {clientConfig : ClientConfig} {authenticatedData : Bytes} {coins : ExternalCoins}
      {currentTime : ℤ} {joined : ExternalJoin cs.signature}
      (joined_eq : joinGroupExternal cs groupInfo keyPackage privateKeys resync tree clientConfig
        authenticatedData coins currentTime = .ok joined) : InEpoch cs joined.newState
  | created {state : ClientState cs.signature} {pskIndex : PskIndex}
      {options : CreateCommitOptions cs.signature} {coins : CommitCoins} {currentTime : ℤ}
      {result : CreateCommitResult cs.signature}
      (created : createCommit cs state pskIndex options coins currentTime = .ok result) :
      InEpoch cs result.newState
  | accepted {message : MlsHandshakeMessage} {state newState : ClientState cs.signature}
      {pskIndex : PskIndex} {action : IncomingMessageCallback} {currentTime : ℤ}
      {committer : AuthenticatedSender}
      (accepted : processMessage cs message state pskIndex action currentTime =
        .ok (.newState newState .accept (some committer)))
      (member : newState.groupActiveState ≠ .removedFromGroup) : InEpoch cs newState
  | ran {state later : ClientState cs.signature} (inEpoch : InEpoch cs state)
      (ran : RunsTo cs state later) : InEpoch cs later

theorem EpochStep.nonempty_trace (hmac : VerifiesMac cs.hash) (h : EpochStep cs state later)
    (htrace : Nonempty (EpochTrace cs state)) : Nonempty (EpochTrace cs later) := by
  cases h with
  | within stays => exact htrace.map fun trace => trace.shared stays.sharesEpoch
  | created created => exact (createCommit_confirms created).1
  | followed f content commit follows => exact follows.nonempty_trace hmac

/-- What an accepted commit was read as, and the commit that was followed. -/
theorem processMessage_followed {message : MlsHandshakeMessage}
    {newState : ClientState cs.signature} {pskIndex : PskIndex} {action : IncomingMessageCallback}
    {currentTime : ℤ} {committer : AuthenticatedSender}
    (h : processMessage cs message state pskIndex action currentTime =
      .ok (.newState newState .accept (some committer)))
    (hmember : newState.groupActiveState ≠ .removedFromGroup) :
    ∃ f : FollowedCommit cs, readContent cs state message = .ok f.content ∧
      f.Follows (afterReading cs state message) pskIndex currentTime ∧
      newState = f.newState (afterReading cs state message) := by
  generalize hr : ProcessMessageResult.newState newState .accept (some committer) = r at h
  cases processMessage_processed h with
  | followed current f content commit follows =>
    obtain ⟨rfl, -⟩ := ProcessMessageResult.newState.inj hr
    exact ⟨f, content, follows, rfl⟩
  | removed current =>
    obtain ⟨rfl, -⟩ := ProcessMessageResult.newState.inj hr
    exact absurd rfl hmember
  | _ => cases hr

theorem InEpoch.nonempty_trace (hmac : VerifiesMac cs.hash) (h : InEpoch cs state) :
    Nonempty (EpochTrace cs state) := by
  induction h with
  | joined joined => exact joinGroup_nonempty_trace hmac joined
  | joinedExternally joined => exact (joinGroupExternal_confirms joined).1
  | created created => exact (createCommit_confirms created).1
  | accepted accepted member =>
    obtain ⟨f, -, follows, rfl⟩ := processMessage_followed accepted member
    exact follows.nonempty_trace hmac
  | ran inEpoch ran ih => exact ran.epochInv (fun htrace h => h.nonempty_trace hmac htrace) ih

/-- Clients of one confirmation tag hold one group: whichever way each came into its epoch and
whatever it did since, nothing it computed can be told from what the other did. -/
theorem confirmationTag_agrees (cs : CiphersuiteImpl) (hmac : VerifiesMac cs.hash)
    {a b : ClientState cs.signature} (ha : InEpoch cs a) (hb : InEpoch cs b) :
    Nonempty (EpochTrace cs a) ∧ Nonempty (EpochTrace cs b) ∧
      ∀ (α : EpochTrace cs a) (β : EpochTrace cs b), EpochTrace.NoCollision α β →
        a.confirmationTag = b.confirmationTag → EpochTrace.Agree a b :=
  ⟨ha.nonempty_trace hmac, hb.nonempty_trace hmac, fun _ _ h htag => EpochTrace.agree h htag⟩

/-! ## Commits that are published -/

/-- The ways into the epoch of a public commit: its creator's, an external joiner's, those of the
members that accept it, and that of a new member whose Welcome holds the commit's tag. -/
inductive EntersBy (cs : CiphersuiteImpl) (pm : PublicMessage) : ClientState cs.signature → Prop
  | created {state : ClientState cs.signature} {pskIndex : PskIndex}
      {options : CreateCommitOptions cs.signature} {coins : CommitCoins} {currentTime : ℤ}
      {result : CreateCommitResult cs.signature}
      (created : createCommit cs state pskIndex options coins currentTime = .ok result)
      (commit : result.commit.content = .mls_public_message pm) : EntersBy cs pm result.newState
  | joinedExternally {groupInfo : GroupInfo} {keyPackage : KeyPackage}
      {privateKeys : PrivateKeyPackage cs.signature} {resync : Bool} {tree : Option RatchetTree}
      {clientConfig : ClientConfig} {authenticatedData : Bytes} {coins : ExternalCoins}
      {currentTime : ℤ} {joined : ExternalJoin cs.signature}
      (joined_eq : joinGroupExternal cs groupInfo keyPackage privateKeys resync tree clientConfig
        authenticatedData coins currentTime = .ok joined) (commit : joined.publicMessage = pm) :
      EntersBy cs pm joined.newState
  | accepted {state newState : ClientState cs.signature} {pskIndex : PskIndex}
      {action : IncomingMessageCallback} {currentTime : ℤ} {committer : AuthenticatedSender}
      (accepted : processMessage cs (.mls_public_message pm) state pskIndex action currentTime =
        .ok (.newState newState .accept (some committer)))
      (member : newState.groupActiveState ≠ .removedFromGroup) : EntersBy cs pm newState
  | welcomed {welcome : Welcome} {keyPackage : KeyPackage}
      {privateKeys : PrivateKeyPackage cs.signature} {pskSearch : PskIndex}
      {options : JoinOptions cs.signature} {currentTime : ℤ} {opened : OpenedWelcome}
      {state : ClientState cs.signature}
      (opened_eq : openWelcome cs welcome keyPackage privateKeys.initPrivateKey pskSearch =
        .ok opened)
      (joined : joinGroup cs welcome keyPackage privateKeys pskSearch options currentTime =
        .ok state)
      (commit : pm.auth.content = .commit opened.groupInfo.confirmationTag) : EntersBy cs pm state

variable {pm : PublicMessage}

theorem EntersBy.inEpoch (h : EntersBy cs pm state) : InEpoch cs state := by
  cases h with
  | created created commit => exact .created created
  | joinedExternally joined_eq commit => exact .joinedExternally joined_eq
  | accepted accepted member => exact .accepted accepted member
  | welcomed opened_eq joined commit => exact .joined joined

theorem protectPublicMessage_auth {membershipKey : Bytes} {groupContext : GroupContext}
    {content : AuthenticatedContent}
    (h : protectPublicMessage membershipKey groupContext content cs = .ok pm) :
    pm.auth = content.auth := by
  unfold protectPublicMessage at h
  split at h
  · cases h
  · split at h
    · obtain ⟨tag, -, h⟩ := bind_eq_ok.mp h
      rw [← Except.ok.inj h]
    all_goals rw [← Except.ok.inj h]

theorem unprotectPublicMessage_auth {membershipKey : Bytes} {groupContext : GroupContext}
    {ratchetTree : RatchetTree} {content : AuthenticatedContent}
    (h : unprotectPublicMessage membershipKey groupContext ratchetTree pm cs = .ok content) :
    content.auth = pm.auth := by
  unfold unprotectPublicMessage at h
  split at h
  · cases h
  · obtain ⟨isMember, -, h⟩ := bind_eq_ok.mp h
    split at h
    · cases h
    · obtain ⟨signaturePublicKey, -, h⟩ := bind_eq_ok.mp h
      obtain ⟨signatureValid, -, h⟩ := bind_eq_ok.mp h
      split_ifs at h
      rw [← Except.ok.inj h]

/-- Whoever enters by the commit holds the tag that it carries. -/
theorem EntersBy.confirmationTag (h : EntersBy cs pm state) :
    pm.auth.content = .commit state.confirmationTag := by
  cases h with
  | created created commit =>
    obtain ⟨-, content, signature, hprotect⟩ := createCommit_confirms created
    unfold protectCommit at hprotect
    split at hprotect
    · obtain ⟨msg, hmsg, hprotect⟩ := bind_eq_ok.mp hprotect
      rw [← Except.ok.inj hprotect] at commit
      obtain rfl := MlsMessageContent.mls_public_message.inj commit
      rw [protectPublicMessage_auth hmsg]
    · obtain ⟨msg, -, hprotect⟩ := bind_eq_ok.mp hprotect
      rw [← Except.ok.inj hprotect] at commit
      cases commit
  | joinedExternally joined_eq commit =>
    obtain ⟨-, content, hprotect, htag⟩ := joinGroupExternal_confirms joined_eq
    rw [← commit, protectPublicMessage_auth hprotect, htag]
  | accepted accepted member =>
    obtain ⟨f, hcontent, follows, rfl⟩ := processMessage_followed accepted member
    rw [← unprotectPublicMessage_auth hcontent]
    exact (deriveNextEpoch_confirms follows.next).1
  | welcomed opened_eq joined commit =>
    obtain ⟨opened', tree, result, hopened, -, -, henter, rfl⟩ := joinGroup_eq_ok joined
    obtain rfl := Except.ok.inj (opened_eq.symm.trans hopened)
    rw [commit, enterGroup_confirmationTag henter]

/-- A public commit never splits the group: no two clients that enter an epoch by it, as its
creator, as members or as new members, hold different groups or keys. -/
theorem commit_agrees (cs : CiphersuiteImpl) (hmac : VerifiesMac cs.hash) (pm : PublicMessage)
    {a b : ClientState cs.signature} (ha : EntersBy cs pm a) (hb : EntersBy cs pm b) :
    Nonempty (EpochTrace cs a) ∧ Nonempty (EpochTrace cs b) ∧
      ∀ (α : EpochTrace cs a) (β : EpochTrace cs b), EpochTrace.NoCollision α β →
        EpochTrace.Agree a b := by
  refine ⟨ha.inEpoch.nonempty_trace hmac, hb.inEpoch.nonempty_trace hmac, fun α β h => ?_⟩
  have htag := ha.confirmationTag.symm.trans hb.confirmationTag
  exact EpochTrace.agree h (FramedContentAuthDataContent.commit.inj htag)

end

/-! ## Two members without secrets -/

theorem plainSuite_verifiesMac : VerifiesMac plainSuite.hash :=
  fun _ _ _ h => eq_of_beq h

/-- What the confirmation key is derived with. -/
def confirmInfo : Except MlsError Bytes := do
  let lengthBytes ← encodeUint16 plainSuite.kdf.size
  let info ← encodeLabelled "confirm" []
  pure (lengthBytes ++ info)

theorem plain_expand (x : Bytes × Bytes) {out : Bytes}
    (h : plainSuite.kdf.expand x.1 x.2 plainSuite.kdf.size = .ok out) :
    out = [checksum (x.2 ++ x.1)] :=
  (Except.ok.inj h).symm

/-- The key that is derived from a secret of one byte is another byte. -/
theorem confirm_ne {s : UInt8} {x : Bytes × Bytes}
    (h : (⟨[s], "confirm", []⟩ : Expansion).input plainSuite.kdf = .ok x) :
    [checksum (x.2 ++ x.1)] ≠ [s] := by
  obtain ⟨info, hinfo, hsum⟩ := map_eq_ok.mp
    (show confirmInfo.map checksum = .ok 51 by decide +kernel)
  have hinput : (⟨[s], "confirm", []⟩ : Expansion).input plainSuite.kdf =
      confirmInfo.map fun info => ([s], info) := by
    simp only [Expansion.input, confirmInfo]
    cases encodeUint16 plainSuite.kdf.size with
    | error e => rfl
    | ok lengthBytes => cases encodeLabelled "confirm" [] <;> rfl
  rw [hinput, hinfo] at h
  obtain rfl := Except.ok.inj h
  intro heq
  have hbyte : 3 * checksum info + s = s := by
    have := List.head_eq_of_cons_eq heq
    rwa [checksum, List.foldl_append] at this
  rw [hsum, UInt8.add_eq_right] at hbyte
  exact absurd hbyte (by decide)

/-- Between the two computations of one epoch nothing collides. -/
theorem plain_noCollision {a b : ClientState plainSuite.signature} (α : EpochTrace plainSuite a)
    (h : SharesEpoch a b) : EpochTrace.NoCollision α (α.shared h) := by
  have hkeys : (α.shared h).macInput = α.macInput := by
    simp only [EpochTrace.macInput, h.keySchedule, h.groupContext]
  have hinputs : (α.shared h).expandInputs = α.expandInputs := rfl
  obtain ⟨encoded, hencoded, hepoch⟩ :=
    (Expansion.run_eq_ok (e := ⟨α.extracted, "epoch", α.encodedContext⟩)).mp α.epoch
  have hsecret := plain_expand encoded hepoch
  have hne {confirmed : Bytes × Bytes}
      (h : (⟨α.epochSecret, "confirm", []⟩ : Expansion).input plainSuite.kdf = .ok confirmed) :
      [checksum (confirmed.2 ++ confirmed.1)] ≠ [checksum (encoded.2 ++ encoded.1)] := by
    rw [hsecret] at h
    exact confirm_ne h
  refine ⟨?_, ?_, fun x _ y _ hxy => (List.cons.inj hxy).2⟩
  · rw [hkeys, Set.pair_eq_singleton]
    rintro x rfl y rfl _ - -
    rfl
  · rw [hinputs, Set.union_self]
    rintro x ⟨e, he, hx⟩ y ⟨e', he', hy⟩ out hout hout'
    have heq := (plain_expand x hout).symm.trans (plain_expand y hout')
    simp only [EpochTrace.expansions, List.mem_cons, List.not_mem_nil, or_false] at he he'
    rcases he with rfl | rfl <;> rcases he' with rfl | rfl
    · exact Except.ok.inj (hx.symm.trans hy)
    · obtain rfl := Except.ok.inj (hencoded.symm.trans hx)
      exact absurd heq.symm (hne hy)
    · obtain rfl := Except.ok.inj (hencoded.symm.trans hy)
      exact absurd heq (hne hx)
    · exact Except.ok.inj (hx.symm.trans hy)

/-- The creator of a group of two publishes an empty commit, and the other member, who was
welcomed, accepts it. -/
def publishedCommit : Except MlsError (PublicMessage × CreateCommitResult plainSuite.signature ×
    ClientState plainSuite.signature) := do
  let group ← plainGroupOf 1 [2]
  let keyPackage ← plainKeyPackage 2
  match group.welcome with
  | none => throw (usageError "No member was added")
  | some welcome => do
    let member ← joinGroup plainSuite welcome keyPackage (plainPrivateKeys 2) emptyPskIndex {
      ratchetTree := some group.newState.ratchetTree
      clientConfig := plainConfig } 0
    let created ← createCommit plainSuite group.newState emptyPskIndex
      { wireAsPublicMessage := true } (plainCoins [7]) 0
    match created.commit.content with
    | .mls_public_message pm => do
      let processed ← processMessage plainSuite (.mls_public_message pm) member emptyPskIndex
        acceptAll 0
      match processed with
      | .newState accepted .accept (some _) => pure (pm, created, accepted)
      | _ => throw (usageError "The commit was not accepted")
    | _ => throw (usageError "The commit is private")

/-- Both members entered by the commit, into one epoch. -/
theorem publishedCommit_enters : ∃ pm a b, EntersBy plainSuite pm a ∧ EntersBy plainSuite pm b ∧
    SharesEpoch a b := by
  have heval : (publishedCommit.map fun (_, created, accepted) =>
      decide (accepted.groupContext = created.newState.groupContext) &&
        decide (accepted.ratchetTree = created.newState.ratchetTree) &&
        decide (accepted.keySchedule = created.newState.keySchedule) &&
        decide (accepted.confirmationTag = created.newState.confirmationTag) &&
        decide (accepted.groupActiveState = .active)) = .ok true := by
    decide +kernel
  obtain ⟨⟨pm, created, accepted⟩, hrun, hequal⟩ := map_eq_ok.mp heval
  simp only [Bool.and_eq_true, decide_eq_true_eq] at hequal
  obtain ⟨⟨⟨⟨hcontext, htree⟩, hkeys⟩, htag⟩, hactive⟩ := hequal
  obtain ⟨group, -, hrun⟩ := bind_eq_ok.mp hrun
  obtain ⟨keyPackage, -, hrun⟩ := bind_eq_ok.mp hrun
  cases hwelcome : group.welcome with
  | none =>
    rw [hwelcome] at hrun
    cases hrun
  | some welcome =>
    rw [hwelcome] at hrun
    obtain ⟨member, -, hrun⟩ := bind_eq_ok.mp hrun
    obtain ⟨result, hcreated, hrun⟩ := bind_eq_ok.mp hrun
    cases hcommit : result.commit.content with
    | mls_public_message publicMessage =>
      rw [hcommit] at hrun
      obtain ⟨processed, hprocessed, hrun⟩ := bind_eq_ok.mp hrun
      split at hrun
      · rename_i newState committer
        obtain ⟨rfl, hrest⟩ := Prod.mk.inj (Except.ok.inj hrun)
        obtain ⟨rfl, rfl⟩ := Prod.mk.inj hrest
        refine ⟨publicMessage, result.newState, newState, .created hcreated hcommit,
          .accepted hprocessed ?_, ⟨hcontext, htree, hkeys, htag⟩⟩
        rw [hactive]
        exact GroupActiveState.noConfusion
      · cases hrun
    | _ =>
      rw [hcommit] at hrun
      cases hrun

/-- The tag they hold is one, and so is the group. -/
theorem members_of_one_tag_agree : ∃ a b : ClientState plainSuite.signature,
    a.confirmationTag = b.confirmationTag ∧ EpochTrace.Agree a b := by
  obtain ⟨pm, a, b, ha, hb, hshares⟩ := publishedCommit_enters
  obtain ⟨⟨α⟩, -, hagree⟩ := confirmationTag_agrees plainSuite plainSuite_verifiesMac ha.inEpoch
    hb.inEpoch
  have htag := hshares.confirmationTag.symm
  exact ⟨a, b, htag, hagree α (α.shared hshares) (plain_noCollision α hshares) htag⟩

theorem published_commit_agrees : ∃ pm a b, EntersBy plainSuite pm a ∧ EntersBy plainSuite pm b ∧
    EpochTrace.Agree a b := by
  obtain ⟨pm, a, b, ha, hb, hshares⟩ := publishedCommit_enters
  obtain ⟨⟨α⟩, -, hagree⟩ := commit_agrees plainSuite plainSuite_verifiesMac pm ha hb
  exact ⟨pm, a, b, ha, hb, hagree α (α.shared hshares) (plain_noCollision α hshares)⟩

end WebcryptoMls
