import WebcryptoMls.CreateMessage
import WebcryptoMls.MessagePadding
import WebcryptoMls.RatchetWindow

/-!
# Message delivery

What one member of an epoch protects another reads back whole, as long as the reader's
ratchet for the sender still gives the generation it was protected in.
-/
namespace WebcryptoMls
open Records PrefixCode

/-! ## What the primitives promise -/

/-- What messages need of the primitives beside the ratchets: an expansion is as long as is asked,
and what is encrypted decrypts under the same key, nonce and data. -/
structure MessageCrypto (cs : CiphersuiteImpl) : Prop where
  ratchets : RatchetCrypto cs
  refuses : RefusesEmptySecret cs.kdf
  length : ∀ secret info length derived, cs.kdf.expand secret info length = .ok derived →
    derived.length = length
  aead : ∀ key nonce aad plaintext ciphertext,
    cs.hpke.encryptAead key nonce aad plaintext = .ok ciphertext →
      cs.hpke.decryptAead key nonce aad ciphertext = .ok plaintext

/-- Signatures under the private key verify under the public key. -/
def Signature.Matches (s : Signature) (signKey : s.SignatureSecretKey) (publicKey : Bytes) : Prop :=
  ∀ coins message signature, s.sign coins signKey message = .ok signature →
    s.verify publicKey message signature = true

variable {cs : CiphersuiteImpl}

theorem verifyFramedContentSignature_of_signed {signKey : cs.signature.SignatureSecretKey}
    {publicKey coins : Bytes} {wireformat : WireformatName} {content : FramedContent}
    {auth : FramedContentAuthData} {context : GroupContext}
    (hkey : cs.signature.Matches signKey publicKey)
    (h : signFramedContentTBS cs.signature coins signKey (toTbs content wireformat context) =
      .ok auth.signature) :
    verifyFramedContentSignature publicKey wireformat content auth context cs.signature =
      .ok true := by
  obtain ⟨tbs, htbs, hsign⟩ := bind_eq_ok.mp h
  obtain ⟨labelled, hlabelled, hsign⟩ := bind_eq_ok.mp hsign
  unfold verifyFramedContentSignature verifyWithLabel
  rw [htbs, ok_bind, hlabelled, ok_bind]
  exact congrArg Except.ok (hkey _ _ _ hsign)

theorem verifyFramedContentSignature_of_sign {signKey : cs.signature.SignatureSecretKey}
    {publicKey coins : Bytes} {wireformat : WireformatName} {content : FramedContent}
    {auth : FramedContentAuthData} {context : GroupContext}
    (hkey : cs.signature.Matches signKey publicKey)
    (h : signFramedContentApplicationOrProposal cs signKey coins (toTbs content wireformat context) =
      .ok auth) :
    verifyFramedContentSignature publicKey wireformat content auth context cs.signature =
      .ok true := by
  obtain ⟨signature, hsign, h⟩ := bind_eq_ok.mp h
  refine verifyFramedContentSignature_of_signed hkey (hsign.trans ?_)
  rw [← Except.ok.inj h]

/-! ## Sender data -/

theorem recovers_reuseGuard {reuseGuard : Bytes} (h : reuseGuard.length = 4) :
    Recovers decodeReuseGuard (.ok reuseGuard) reuseGuard := by
  intro l x r hx
  obtain rfl := Except.ok.inj hx
  unfold decodeReuseGuard
  rw [if_neg (by simp [h]), List.drop_left, List.take_left' h, h]

theorem recovers_senderData {senderData : SenderData} (h : senderData.reuseGuard.length = 4) :
    Recovers decodeSenderData (encodeSenderData senderData) senderData :=
  .field (e := fun n : ℕ => encodeUint32 n) (recovers_uint_toNat 4 senderData.leafIndex) <|
    .field (e := fun n : ℕ => encodeUint32 n) (recovers_uint_toNat 4 senderData.generation) <|
      .field (e := pure) (recovers_reuseGuard h) recovers_nil

theorem decryptSenderData_encryptSenderData (hcs : MessageCrypto cs) {senderDataSecret : Bytes}
    {senderData : SenderData} {msg : PrivateMessage} (hguard : senderData.reuseGuard.length = 4)
    (h : encryptSenderData senderDataSecret senderData
      { groupId := msg.groupId, epoch := msg.epoch, contentType := msg.contentType } msg.ciphertext
        cs = .ok msg.encryptedSenderData) :
    decryptSenderData msg senderDataSecret cs = .ok (some senderData) := by
  obtain ⟨key, hkey, h⟩ := bind_eq_ok.mp h
  obtain ⟨nonce, hnonce, h⟩ := bind_eq_ok.mp h
  obtain ⟨aad, haad, h⟩ := bind_eq_ok.mp h
  obtain ⟨encoded, hencoded, h⟩ := bind_eq_ok.mp h
  have hdecoded := recovers_senderData hguard [] encoded [] hencoded
  rw [List.append_nil, List.nil_append, List.length_nil] at hdecoded
  unfold decryptSenderData
  rw [hkey, ok_bind, hnonce, ok_bind, haad, ok_bind, hcs.aead _ _ _ _ _ h, ok_bind, hdecoded]
  rfl

theorem encodeSenderData_lt {senderData : SenderData} {b : Bytes}
    (h : encodeSenderData senderData = .ok b) : senderData.generation < 2 ^ 32 := by
  obtain ⟨_, _, -, h, -⟩ := concat_cons_eq_ok.mp h
  obtain ⟨_, _, h, -, -⟩ := concat_cons_eq_ok.mp h
  obtain ⟨-, hlt, -⟩ := encodeUint_eq_ok h
  exact_mod_cast hlt

/-! ## One ratchet of a tree -/

/-- The tree holds a leaf's ratchet, on the chain of `root` and with the window `w`. -/
structure RatchetAt (cs : CiphersuiteImpl) (root : Bytes) (tree : SecretTree) (leafIndex : ℕ)
    (name : RatchetName) (w : Window) : Prop where
  exists_node : ∃ node, ratchetsAt tree (leafToNodeIndex leafIndex) = some node ∧
    OnChain cs root (node.ratchet name) ∧ Tracks cs (node.ratchet name) w

/-- A write elsewhere, or to the leaf's other ratchet, leaves the ratchet alone. -/
theorem RatchetAt.updateArray {root : Bytes} {tree : SecretTree} {i j : ℕ} {name : RatchetName}
    {w : Window} {node : SecretTreeNode} {contentType : ContentTypeName} {next : GenerationSecret}
    (h : RatchetAt cs root tree i name w)
    (hnode : ratchetsAt tree (leafToNodeIndex j) = some node)
    (hne : ¬ (i = j ∧ name = ratchetName contentType)) :
    RatchetAt cs root (updateArray tree (leafToNodeIndex j)
      (some (withRatchet node contentType next))) i name w := by
  obtain ⟨node', hnode', hchain, htracks⟩ := h.exists_node
  refine ⟨?_⟩
  simp only [ratchetsAt_updateArray hnode]
  split_ifs with heq
  · have hij : i = j := by
      rw [leafToNodeIndex_eq, leafToNodeIndex_eq] at heq
      exact (coord_inj.mp heq).2
    subst hij
    obtain rfl := Option.some.inj (hnode.symm.trans hnode')
    refine ⟨_, rfl, ?_⟩
    rw [ratchet_withRatchet, if_neg fun hname => hne ⟨rfl, hname⟩]
    exact ⟨hchain, htracks⟩
  · exact ⟨node', hnode', hchain, htracks⟩

theorem updateArray_withRatchet_inj {tree : SecretTree} {index : ℤ} {node : SecretTreeNode}
    {contentType : ContentTypeName} {next next' : GenerationSecret}
    (hnode : ratchetsAt tree index = some node)
    (h : updateArray tree index (some (withRatchet node contentType next)) =
      updateArray tree index (some (withRatchet node contentType next'))) : next = next' := by
  have hat := congrArg (fun tree => ratchetsAt tree index) h
  simp only [ratchetsAt_updateArray hnode, if_true, Option.some.injEq] at hat
  have hratchet := congrArg (fun n => n.ratchet (ratchetName contentType)) hat
  simpa only [ratchet_withRatchet, if_true] using hratchet

/-- The ratchet gives the key and nonce of a generation of its chain, and has the window `w'`
from then on. -/
structure GivesAt (cs : CiphersuiteImpl) (root : Bytes) (tree : SecretTree) (leafIndex : ℕ)
    (contentType : ContentTypeName) (generation : ℕ) (reuseGuard : Bytes) (w' : Window)
    (result : ConsumeRatchetResult) : Prop where
  given : result.generation = generation
  keyNonce : ∃ derived, generationKeyNonce cs root generation = .ok derived ∧
    result.key = derived.key ∧ applyReuseGuard derived.nonce reuseGuard = .ok result.nonce
  next : RatchetAt cs root result.newTree leafIndex (ratchetName contentType) w'
  written : ∃ node next, ratchetsAt tree (leafToNodeIndex leafIndex) = some node ∧
    result.newTree = updateArray tree (leafToNodeIndex leafIndex)
      (some (withRatchet node contentType next))

theorem givesAt_of {root : Bytes} {tree : SecretTree} {leafIndex generation : ℕ}
    {contentType : ContentTypeName} {reuseGuard : Bytes} {w' : Window}
    {result : ConsumeRatchetResult} {node : SecretTreeNode} {ratchet next next' : GenerationSecret}
    (hnode : ratchetsAt tree (leafToNodeIndex leafIndex) = some node)
    (hgen : result.generation = generation)
    (hgives : Gives cs root ratchet next reuseGuard result)
    (htree : result.newTree = updateArray tree (leafToNodeIndex leafIndex)
      (some (withRatchet node contentType next)))
    (htracks : Tracks cs next' w')
    (htree' : result.newTree = updateArray tree (leafToNodeIndex leafIndex)
      (some (withRatchet node contentType next'))) :
    GivesAt cs root tree leafIndex contentType generation reuseGuard w' result := by
  obtain rfl := updateArray_withRatchet_inj hnode (htree.symm.trans htree')
  refine ⟨hgen, hgen ▸ hgives.keyNonce, ⟨?_⟩, node, next, hnode, htree⟩
  rw [htree]
  simp only [ratchetsAt_updateArray hnode, if_true]
  refine ⟨_, rfl, ?_⟩
  rw [ratchet_withRatchet, if_pos rfl]
  exact ⟨hgives.onChain, htracks⟩

theorem consumeRatchet_reuseGuard {tree : SecretTree} {index : ℤ} {contentType : ContentTypeName}
    {reuseGuard : Bytes} {result : ConsumeRatchetResult}
    (h : consumeRatchet tree index contentType reuseGuard cs = .ok result) :
    result.reuseGuard = reuseGuard := by
  unfold consumeRatchet at h
  cases hnode : ratchetsAt tree index with
  | none =>
    rw [hnode] at h
    cases h
  | some node =>
    rw [hnode] at h
    obtain ⟨_, -, h⟩ := bind_eq_ok.mp h
    obtain ⟨_, -, h⟩ := bind_eq_ok.mp h
    obtain ⟨_, -, h⟩ := bind_eq_ok.mp h
    rw [← Except.ok.inj h]

section
variable {root : Bytes} {tree : SecretTree} {leafIndex : ℕ} {contentType : ContentTypeName}
  {w : Window}

/-- A sender takes the generation its ratchet is at. -/
theorem consumeRatchet_at (hcs : MessageCrypto cs) {reuseGuard : Bytes}
    {result : ConsumeRatchetResult}
    (hat : RatchetAt cs root tree leafIndex (ratchetName contentType) w)
    (hlt : w.next < 2 ^ 32) (hguard : reuseGuard.length = 4)
    (h : consumeRatchet tree (leafToNodeIndex leafIndex) contentType reuseGuard cs = .ok result) :
    GivesAt cs root tree leafIndex contentType w.next reuseGuard ⟨w.next + 1, w.skipped⟩ result := by
  obtain ⟨node, hnode, hchain, htracks⟩ := hat.exists_node
  obtain ⟨node', next, hnode', hgen, -, htree, hgives⟩ := consumeRatchet_gives hcs.refuses h
  obtain rfl := Option.some.inj (hnode.symm.trans hnode')
  obtain ⟨result', next', hresult', -, htree', htracks'⟩ :=
    createRatchetResult_tracks hcs.ratchets node (leafToNodeIndex leafIndex) tree contentType htracks
      (by rwa [htracks.next]) hguard
  have hsame : result = result' := by
    unfold consumeRatchet at h
    rw [hnode] at h
    exact Except.ok.inj (h.symm.trans hresult')
  exact givesAt_of hnode (hgen.trans htracks.next) (hgives root hchain) htree htracks'
    (hsame ▸ htree')

/-- A receiver is given a generation its window accepts. -/
theorem ratchetToGeneration_at (hcs : MessageCrypto cs) {config : KeyRetentionConfig}
    {senderData : SenderData}
    (hat : RatchetAt cs root tree senderData.leafIndex (ratchetName contentType) w)
    (hdata : senderData.Decoded)
    (haccepts : w.Accepts config.maximumForwardRatchetSteps senderData.generation) :
    ∃ result, ratchetToGeneration tree senderData contentType config cs = .ok result ∧
      GivesAt cs root tree senderData.leafIndex contentType senderData.generation
        senderData.reuseGuard (w.give config.retainKeysForGenerations senderData.generation)
        result := by
  obtain ⟨node, hnode, hchain, htracks⟩ := hat.exists_node
  obtain ⟨result, next', hresult, hgen, htree', htracks'⟩ :=
    ratchetToGeneration_accepts hcs.ratchets hnode htracks hdata haccepts
  obtain ⟨-, node', next, hnode', htree, hgives⟩ := ratchetToGeneration_gives hcs.refuses hresult
  obtain rfl := Option.some.inj (hnode.symm.trans hnode')
  exact ⟨result, hresult, givesAt_of hnode hgen (hgives root hchain) htree htracks' htree'⟩

end

/-! ## Messages that can be read -/

/-- The message holds a content, protected by a leaf in a generation of its chain. -/
structure Conveys (cs : CiphersuiteImpl) (senderDataSecret : Bytes) (ratchetTree : RatchetTree)
    (groupContext : GroupContext) (root : Bytes) (senderData : SenderData)
    (content : AuthenticatedContent) (msg : PrivateMessage) : Prop where
  decoded : senderData.Decoded
  decrypted : decryptSenderData msg senderDataSecret cs = .ok (some senderData)
  contentType : msg.contentType = content.content.contentType
  leaf : ∃ leaf, leafAt ratchetTree senderData.leafIndex = some leaf ∧
    verifyFramedContentSignature leaf.signaturePublicKey .mls_private_message content.content
      content.auth groupContext cs.signature = .ok true
  plaintext : ∃ aad derived nonce plaintext pmc n,
    encodePrivateContentAAD {
      groupId := msg.groupId
      epoch := msg.epoch
      contentType := msg.contentType
      authenticatedData := msg.authenticatedData } = .ok aad ∧
    generationKeyNonce cs root senderData.generation = .ok derived ∧
    applyReuseGuard derived.nonce senderData.reuseGuard = .ok nonce ∧
    cs.hpke.decryptAead derived.key nonce (some aad) msg.ciphertext = .ok plaintext ∧
    decodePrivateMessageContent msg.contentType plaintext 0 = .ok (some (pmc, n)) ∧
    toAuthenticatedContent pmc msg senderData.leafIndex = content

/-- What a member protects in its epoch. -/
def protectedContent (groupContext : GroupContext) (leafIndex : ℕ) (authenticatedData : Bytes)
    (content : PrivateMessageContent) : AuthenticatedContent where
  wireformat := .mls_private_message
  content := memberContent groupContext leafIndex authenticatedData content.info
  auth := content.auth

section
variable {root senderDataSecret : Bytes} {tree : SecretTree} {ratchetTree : RatchetTree}
  {groupContext : GroupContext} {w : Window}

theorem protect_generation {authenticatedData reuseGuard : Bytes} {content : PrivateMessageContent}
    {leafIndex : ℕ} {config : PaddingConfig} {result : ProtectResult} {name : RatchetName}
    (h : protect senderDataSecret authenticatedData groupContext tree content leafIndex config
      reuseGuard cs = .ok result)
    (hat : RatchetAt cs root tree leafIndex name w)
    (hname : name = ratchetName content.info.contentType) : w.next < 2 ^ 32 := by
  subst hname
  obtain ⟨node, hnode, -, htracks⟩ := hat.exists_node
  obtain ⟨consumed, hconsumed, h⟩ := bind_eq_ok.mp h
  obtain ⟨aad, -, h⟩ := bind_eq_ok.mp h
  obtain ⟨encoded, -, h⟩ := bind_eq_ok.mp h
  obtain ⟨ciphertext, -, h⟩ := bind_eq_ok.mp h
  obtain ⟨encryptedSenderData, h, -⟩ := bind_eq_ok.mp h
  obtain ⟨_, -, h⟩ := bind_eq_ok.mp h
  obtain ⟨_, -, h⟩ := bind_eq_ok.mp h
  obtain ⟨_, -, h⟩ := bind_eq_ok.mp h
  obtain ⟨_, h, -⟩ := bind_eq_ok.mp h
  have hlt := encodeSenderData_lt h
  unfold consumeRatchet at hconsumed
  rw [hnode] at hconsumed
  obtain ⟨_, -, hconsumed⟩ := bind_eq_ok.mp hconsumed
  obtain ⟨_, -, hconsumed⟩ := bind_eq_ok.mp hconsumed
  obtain ⟨_, -, hconsumed⟩ := bind_eq_ok.mp hconsumed
  rw [← Except.ok.inj hconsumed] at hlt
  rwa [← htracks.next]

theorem protect_envelope {authenticatedData reuseGuard : Bytes} {content : PrivateMessageContent}
    {leafIndex : ℕ} {config : PaddingConfig} {result : ProtectResult}
    (h : protect senderDataSecret authenticatedData groupContext tree content leafIndex config
      reuseGuard cs = .ok result) :
    result.privateMessage.groupId = groupContext.groupId ∧
      result.privateMessage.epoch = groupContext.epoch ∧
      result.privateMessage.contentType = content.info.contentType := by
  obtain ⟨_, -, h⟩ := bind_eq_ok.mp h
  obtain ⟨_, -, h⟩ := bind_eq_ok.mp h
  obtain ⟨_, -, h⟩ := bind_eq_ok.mp h
  obtain ⟨_, -, h⟩ := bind_eq_ok.mp h
  obtain ⟨_, -, h⟩ := bind_eq_ok.mp h
  rw [← Except.ok.inj h]
  exact ⟨rfl, rfl, rfl⟩

/-- What is protected can be read, and the sender's ratchet has moved on by one. -/
theorem protect_conveys (hcs : MessageCrypto cs) {authenticatedData reuseGuard : Bytes}
    {content : PrivateMessageContent} {leafIndex : ℕ} {config : PaddingConfig}
    {result : ProtectResult} {leaf : LeafNode}
    (h : protect senderDataSecret authenticatedData groupContext tree content leafIndex config
      reuseGuard cs = .ok result)
    (hguard : reuseGuard.length = 4) (hcontent : content.WellFormed)
    (hat : RatchetAt cs root tree leafIndex (ratchetName content.info.contentType) w)
    (hleaf : leafAt ratchetTree leafIndex = some leaf)
    (hsigned : verifyFramedContentSignature leaf.signaturePublicKey .mls_private_message
      (memberContent groupContext leafIndex authenticatedData content.info) content.auth
      groupContext cs.signature = .ok true) :
    Conveys cs senderDataSecret ratchetTree groupContext root ⟨leafIndex, w.next, reuseGuard⟩
      (protectedContent groupContext leafIndex authenticatedData content) result.privateMessage ∧
    RatchetAt cs root result.tree leafIndex (ratchetName content.info.contentType)
      ⟨w.next + 1, w.skipped⟩ ∧
    ∃ node next, ratchetsAt tree (leafToNodeIndex leafIndex) = some node ∧
      result.tree = updateArray tree (leafToNodeIndex leafIndex)
        (some (withRatchet node content.info.contentType next)) := by
  have hlt := protect_generation h hat rfl
  obtain ⟨consumed, hconsumed, h⟩ := bind_eq_ok.mp h
  obtain ⟨aad, haad, h⟩ := bind_eq_ok.mp h
  obtain ⟨encoded, hencoded, h⟩ := bind_eq_ok.mp h
  obtain ⟨ciphertext, hciphertext, h⟩ := bind_eq_ok.mp h
  obtain ⟨encryptedSenderData, hsenderData, h⟩ := bind_eq_ok.mp h
  obtain rfl := Except.ok.inj h
  obtain ⟨hgen, ⟨derived, hderived, hkey, hnonce⟩, hnext, hwritten⟩ :=
    consumeRatchet_at hcs hat hlt hguard hconsumed
  have hreuse : consumed.reuseGuard = reuseGuard := consumeRatchet_reuseGuard hconsumed
  rw [hgen, hreuse] at hsenderData
  obtain ⟨x, hx, rfl⟩ := encodePrivateMessageContent_eq_ok.mp hencoded
  have hdecoded := decodePrivateMessageContent_append hcontent hx
    (List.replicate (byteLengthToPad x.length config) 0)
  rw [if_pos (by simp)] at hdecoded
  exact ⟨⟨⟨hlt, hguard⟩, decryptSenderData_encryptSenderData hcs hguard hsenderData, rfl,
    ⟨leaf, hleaf, hsigned⟩, aad, derived, consumed.nonce, _, content, _, haad, hderived, hnonce,
    hcs.aead _ _ _ _ _ (hkey ▸ hciphertext), hdecoded, rfl⟩, hnext, hwritten⟩

section
variable {senderData : SenderData} {content : AuthenticatedContent} {msg : PrivateMessage}
  {config : KeyRetentionConfig}

/-- A reader whose window accepts the generation reads the content. -/
theorem Conveys.unprotect (hcs : MessageCrypto cs)
    (h : Conveys cs senderDataSecret ratchetTree groupContext root senderData content msg)
    (hat : RatchetAt cs root tree senderData.leafIndex (ratchetName msg.contentType) w)
    (haccepts : w.Accepts config.maximumForwardRatchetSteps senderData.generation) :
    ∃ tree', unprotectPrivateMessage senderDataSecret msg tree ratchetTree groupContext config cs =
        .ok { content := content, tree := tree' } ∧
      RatchetAt cs root tree' senderData.leafIndex (ratchetName msg.contentType)
        (w.give config.retainKeysForGenerations senderData.generation) ∧
      ∃ node next, ratchetsAt tree (leafToNodeIndex senderData.leafIndex) = some node ∧
        tree' = updateArray tree (leafToNodeIndex senderData.leafIndex)
          (some (withRatchet node msg.contentType next)) := by
  obtain ⟨leaf, hleaf, hsigned⟩ := h.leaf
  obtain ⟨aad, derived, nonce, plaintext, pmc, n, haad, hderived, hnonce, hplaintext, hpmc, hcontent⟩ :=
    h.plaintext
  obtain ⟨ratcheted, hratcheted, hgives⟩ := ratchetToGeneration_at hcs hat h.decoded haccepts
  obtain ⟨hgen, ⟨derived', hderived', hkey, hnonce'⟩, hnext, hwritten⟩ := hgives
  obtain rfl := Except.ok.inj (hderived.symm.trans hderived')
  obtain rfl := Except.ok.inj (hnonce.symm.trans hnonce')
  refine ⟨ratcheted.newTree, ?_, hnext, hwritten⟩
  unfold unprotectPrivateMessage
  rw [h.decrypted, ok_bind]
  dsimp only
  unfold unprotectContent validateSenderData getSignaturePublicKeyFromLeafIndex
  rw [hleaf]
  dsimp only [throwIfDefined]
  rw [hratcheted]
  simp only [bind, Except.bind, pure, Except.pure, haad, hkey, hplaintext, hpmc, hcontent, hsigned,
    Bool.not_true, Bool.false_eq_true, if_false]

/-- A reader whose window refuses the generation cannot read the message. -/
theorem Conveys.refused
    (h : Conveys cs senderDataSecret ratchetTree groupContext root senderData content msg)
    (hat : RatchetAt cs root tree senderData.leafIndex (ratchetName msg.contentType) w)
    (hrefuses : ¬ w.Accepts config.maximumForwardRatchetSteps senderData.generation) :
    ∃ e, unprotectPrivateMessage senderDataSecret msg tree ratchetTree groupContext config cs =
      .error e := by
  obtain ⟨leaf, hleaf, -⟩ := h.leaf
  obtain ⟨node, hnode, -, htracks⟩ := hat.exists_node
  obtain ⟨e, he⟩ := ratchetToGeneration_refuses hnode htracks hrefuses
  refine ⟨e, ?_⟩
  unfold unprotectPrivateMessage
  rw [h.decrypted, ok_bind]
  dsimp only
  unfold unprotectContent validateSenderData
  rw [hleaf]
  dsimp only [throwIfDefined]
  rw [he]
  rfl

end

end

end WebcryptoMls
