import WebcryptoMls.Ratchets

/-!
# Runs over an epoch's ratchets

A member sends and receives on the secret tree of its epoch, and once it has gone
on to another epoch it receives on the snapshot it retained. Every key and nonce
it is given is the chain's at the generation asked for, so it is the sender's, and
no generation of a ratchet is given to it twice.
-/
namespace WebcryptoMls
open Records Spending

variable {cs : CiphersuiteImpl} {tree₀ tree tree' : SecretTree}

/-! ## One tree -/

theorem ratchetsAt_updateArray {index : ℤ} {node node' : SecretTreeNode}
    (h : ratchetsAt tree index = some node) (i : ℤ) :
    ratchetsAt (updateArray tree index (some node')) i =
      if i = index then some node' else ratchetsAt tree i := by
  unfold ratchetsAt at h ⊢
  unfold updateArray
  split_ifs at h with hneg
  have hlt : index.toNat < tree.length := by
    by_contra hge
    rw [List.getElem?_eq_none (by omega)] at h
    cases h
  have hlen : (tree.take index.toNat).length = index.toNat := by
    rw [List.length_take]
    omega
  by_cases hi : i = index
  · rw [if_pos hi, hi, if_neg hneg, List.getElem?_append_right (by omega), hlen, Nat.sub_self]
    rfl
  rw [if_neg hi]
  split_ifs with hineg
  · rfl
  rcases Nat.lt_or_ge i.toNat index.toNat with hlow | hhigh
  · rw [List.getElem?_append_left (by omega), List.getElem?_take_of_lt hlow]
  · obtain ⟨m, hm⟩ : ∃ m, i.toNat - index.toNat = m + 1 := ⟨i.toNat - index.toNat - 1, by omega⟩
    rw [List.getElem?_append_right (by omega), hlen, hm, List.getElem?_cons_succ,
      List.getElem?_drop]
    congr 2
    omega

theorem ratchet_withRatchet (node : SecretTreeNode) (contentType : ContentTypeName)
    (ratchet : GenerationSecret) (name : RatchetName) :
    (withRatchet node contentType ratchet).ratchet name =
      if name = ratchetName contentType then ratchet else node.ratchet name := by
  cases contentType <;> cases name <;> rfl

/-- Every ratchet of the tree is on the chain of the first tree's ratchet there. -/
def OnChains (cs : CiphersuiteImpl) (tree₀ tree : SecretTree) : Prop :=
  ∀ index node, ratchetsAt tree index = some node → ∃ node₀, ratchetsAt tree₀ index = some node₀ ∧
    ∀ name, OnChain cs (node₀.ratchet name).secret (node.ratchet name)

/-- One generation of one ratchet. -/
@[ext] structure Slot where
  index : ℤ
  ratchet : RatchetName
  generation : ℕ
  deriving DecidableEq

/-- The slots a tree can still give. -/
def freeSlots (tree : SecretTree) : Set Slot :=
  {slot | ∃ node, ratchetsAt tree slot.index = some node ∧
    slot.generation ∈ (node.ratchet slot.ratchet).free}

/-- What a chain of the first tree gives in a slot, behind a reuse guard. -/
def GivenBy (cs : CiphersuiteImpl) (tree₀ : SecretTree) (slot : Slot)
    (reuseGuard key nonce : Bytes) : Prop :=
  ∃ node derived, ratchetsAt tree₀ slot.index = some node ∧
    generationKeyNonce cs (node.ratchet slot.ratchet).secret slot.generation = .ok derived ∧
    key = derived.key ∧ applyReuseGuard derived.nonce reuseGuard = .ok nonce

theorem GivenBy.unique {slot : Slot} {reuseGuard key key' nonce nonce' : Bytes}
    (h : GivenBy cs tree₀ slot reuseGuard key nonce)
    (h' : GivenBy cs tree₀ slot reuseGuard key' nonce') : key = key' ∧ nonce = nonce' := by
  obtain ⟨node, derived, hnode, hderived, rfl, hnonce⟩ := h
  obtain ⟨node', derived', hnode', hderived', rfl, hnonce'⟩ := h'
  obtain rfl := Option.some.inj (hnode.symm.trans hnode')
  obtain rfl := Except.ok.inj (hderived.symm.trans hderived')
  exact ⟨rfl, Except.ok.inj (hnonce.symm.trans hnonce')⟩

theorem OnChains.give (h : OnChains cs tree₀ tree) {index : ℤ} {node : SecretTreeNode}
    {next : GenerationSecret} {contentType : ContentTypeName} {reuseGuard : Bytes}
    {result : ConsumeRatchetResult} (hnode : ratchetsAt tree index = some node)
    (htree : tree' = updateArray tree index (some (withRatchet node contentType next)))
    (hgives : ∀ root, OnChain cs root (ratchetForContentType node contentType) →
      Gives cs root (ratchetForContentType node contentType) next reuseGuard result) :
    OnChains cs tree₀ tree' ∧ ⟨index, ratchetName contentType, result.generation⟩ ∈ freeSlots tree ∧
      freeSlots tree' ⊆
        freeSlots tree \ {⟨index, ratchetName contentType, result.generation⟩} ∧
      GivenBy cs tree₀ ⟨index, ratchetName contentType, result.generation⟩ reuseGuard result.key
        result.nonce := by
  obtain ⟨node₀, hnode₀, hchain⟩ := h index node hnode
  have hg := hgives _ (hchain (ratchetName contentType))
  refine ⟨?_, ⟨node, hnode, hg.free⟩, ?_, ?_⟩
  · intro i n hi
    rw [htree, ratchetsAt_updateArray hnode] at hi
    split_ifs at hi with heq
    · obtain rfl := Option.some.inj hi
      refine ⟨node₀, heq ▸ hnode₀, fun name => ?_⟩
      rw [ratchet_withRatchet]
      split_ifs with hname
      · rw [hname]
        exact hg.onChain
      · exact hchain name
    · exact h i n hi
  · rintro ⟨i, name, g⟩ ⟨n, hi, hfree⟩
    simp only [htree, ratchetsAt_updateArray hnode] at hi
    split_ifs at hi with heq
    · obtain rfl := Option.some.inj hi
      subst heq
      simp only [ratchet_withRatchet] at hfree
      split_ifs at hfree with hname
      · subst hname
        obtain ⟨hold, hne⟩ := hg.rest hfree
        refine ⟨⟨node, hnode, hold⟩, fun hslot => hne ?_⟩
        exact congrArg Slot.generation (Set.mem_singleton_iff.mp hslot)
      · refine ⟨⟨node, hnode, hfree⟩, fun hslot => hname ?_⟩
        exact congrArg Slot.ratchet (Set.mem_singleton_iff.mp hslot)
    · refine ⟨⟨n, hi, hfree⟩, fun hslot => heq ?_⟩
      exact congrArg Slot.index (Set.mem_singleton_iff.mp hslot)
  · obtain ⟨derived, hderived, hkey, hnonce⟩ := hg.keyNonce
    exact ⟨node₀, derived, hnode₀, hderived, hkey, hnonce⟩

/-! ## Snapshots -/

theorem ratchetsAt_strip {index : ℤ} {node : SecretTreeNode}
    (h : ratchetsAt (stripHandshakeRatchets tree) index = some node) :
    ∃ node₁, ratchetsAt tree index = some node₁ ∧ node.application = node₁.application ∧
      node.handshake = ⟨[], node₁.handshake.generation, .empty⟩ := by
  unfold ratchetsAt stripHandshakeRatchets at h
  unfold ratchetsAt
  split_ifs at h ⊢ with hneg
  rw [List.getElem?_map] at h
  cases hget : tree[index.toNat]? with
  | none =>
    rw [hget] at h
    cases h
  | some o =>
    cases o with
    | none =>
      rw [hget] at h
      cases h
    | some node₁ =>
      rw [hget] at h
      obtain rfl := Option.some.inj h
      exact ⟨node₁, rfl, rfl, rfl⟩

theorem OnChains.strip (h : OnChains cs tree₀ tree) :
    OnChains cs tree₀ (stripHandshakeRatchets tree) := by
  intro index node hnode
  obtain ⟨node₁, hnode₁, happlication, hhandshake⟩ := ratchetsAt_strip hnode
  obtain ⟨node₀, hnode₀, hchain⟩ := h index node₁ hnode₁
  refine ⟨node₀, hnode₀, fun name => ?_⟩
  cases name with
  | application =>
    have := hchain .application
    simp only [SecretTreeNode.ratchet] at this ⊢
    rwa [happlication]
  | handshake =>
    simp only [SecretTreeNode.ratchet]
    rw [hhandshake]
    refine ⟨fun hne => absurd rfl hne, fun g kept hg => ?_⟩
    cases hg

theorem freeSlots_strip : freeSlots (stripHandshakeRatchets tree) ⊆ freeSlots tree := by
  rintro ⟨index, name, g⟩ ⟨node, hnode, hfree⟩
  obtain ⟨node₁, hnode₁, happlication, hhandshake⟩ := ratchetsAt_strip hnode
  refine ⟨node₁, hnode₁, ?_⟩
  cases name with
  | application =>
    simp only [SecretTreeNode.ratchet] at hfree ⊢
    rwa [← happlication]
  | handshake =>
    simp only [SecretTreeNode.ratchet] at hfree ⊢
    rw [hhandshake] at hfree
    rcases hfree with hg | ⟨kept, hg⟩
    · exact .inl hg
    · cases hg

/-! ## A new tree -/

/-- Every ratchet of a new tree is at the start of its own chain. -/
theorem createRatchets_start {secret : Option Bytes} {index : ℕ} {node : SecretTreeNode}
    (h : createRatchets cs.kdf secret index = .ok (some node)) (name : RatchetName) :
    (node.ratchet name).generation = 0 ∧ (node.ratchet name).unusedGenerations = .empty := by
  unfold createRatchets at h
  cases secret with
  | none => cases h
  | some secret =>
    simp only at h
    split_ifs at h
    · obtain ⟨application, happlication, h⟩ := bind_eq_ok.mp h
      obtain ⟨handshake, hhandshake, h⟩ := bind_eq_ok.mp h
      obtain rfl := Option.some.inj (Except.ok.inj h)
      obtain ⟨_, -, happlication⟩ := bind_eq_ok.mp happlication
      obtain ⟨_, -, hhandshake⟩ := bind_eq_ok.mp hhandshake
      obtain rfl := Except.ok.inj happlication
      obtain rfl := Except.ok.inj hhandshake
      cases name <;> exact ⟨rfl, rfl⟩
    · cases h

theorem createSecretTree_start {leafWidth : ℚ} {encryptionSecret : Bytes}
    (h : createSecretTree leafWidth encryptionSecret cs.kdf = .ok tree) {index : ℤ}
    {node : SecretTreeNode} (hnode : ratchetsAt tree index = some node) (name : RatchetName) :
    (node.ratchet name).generation = 0 ∧ (node.ratchet name).unusedGenerations = .empty := by
  obtain ⟨secrets, -, h⟩ := bind_eq_ok.mp h
  unfold ratchetsAt at hnode
  split_ifs at hnode
  rw [Option.join_eq_some_iff] at hnode
  obtain ⟨⟨secret, i⟩, -, hcreate⟩ := mem_of_mapM h _ (List.mem_of_getElem? hnode)
  exact createRatchets_start hcreate name

theorem createSecretTree_onChains {leafWidth : ℚ} {encryptionSecret : Bytes}
    (h : createSecretTree leafWidth encryptionSecret cs.kdf = .ok tree) : OnChains cs tree tree := by
  intro index node hnode
  refine ⟨node, hnode, fun name => ?_⟩
  obtain ⟨hgen, hunused⟩ := createSecretTree_start h hnode name
  refine ⟨fun _ => by rw [hgen]; rfl, fun g kept hg => ?_⟩
  rw [hunused] at hg
  cases hg

/-! ## Runs -/

/-- A key and nonce a member was given, to send with or to receive with. -/
structure Use where
  epoch : ℤ
  slot : Slot
  reuseGuard : Bytes
  key : Bytes
  nonce : Bytes
  received : Bool

/-- What a message of an epoch was received with. -/
def receivedUse (epoch : ℤ) (senderData : SenderData) (contentType : ContentTypeName)
    (result : ConsumeRatchetResult) : Use where
  epoch := epoch
  slot := ⟨leafToNodeIndex senderData.leafIndex, ratchetName contentType, senderData.generation⟩
  reuseGuard := senderData.reuseGuard
  key := result.key
  nonce := result.nonce
  received := true

/-- What a message of an epoch was sent with. -/
def sentUse (epoch index : ℤ) (contentType : ContentTypeName) (reuseGuard : Bytes)
    (result : ConsumeRatchetResult) : Use where
  epoch := epoch
  slot := ⟨index, ratchetName contentType, result.generation⟩
  reuseGuard := reuseGuard
  key := result.key
  nonce := result.nonce
  received := false

/-- The steps of a member's state that touch a secret tree: it receives in its
epoch or in an earlier one it has retained, it sends, or a commit takes it to the
next epoch. Between them anything else of the state may change. -/
inductive RatchetStep (cs : CiphersuiteImpl) :
    ClientState cs.signature → List Use → ClientState cs.signature → Prop
  | receive {state : ClientState cs.signature} {senderData : SenderData}
      {contentType : ContentTypeName} {result : ConsumeRatchetResult}
      (h : ratchetToGeneration state.secretTree senderData contentType
        state.clientConfig.keyRetentionConfig cs = .ok result) :
      RatchetStep cs state
        [receivedUse state.groupContext.epoch senderData contentType result]
        { state with secretTree := result.newTree }
  | receiveRetained {state : ClientState cs.signature} {epoch : ℤ} {receiverData : EpochReceiverData}
      {senderData : SenderData} {contentType : ContentTypeName} {result : ConsumeRatchetResult}
      (hepoch : epoch < state.groupContext.epoch)
      (hdata : state.historicalReceiverData.get epoch = some receiverData)
      (h : ratchetToGeneration receiverData.secretTree senderData contentType
        state.clientConfig.keyRetentionConfig cs = .ok result) :
      RatchetStep cs state
        [receivedUse epoch senderData contentType result]
        { state with
          historicalReceiverData := state.historicalReceiverData.set epoch
            { receiverData with secretTree := result.newTree } }
  | send {state : ClientState cs.signature} {index : ℤ} {contentType : ContentTypeName}
      {reuseGuard : Bytes} {result : ConsumeRatchetResult}
      (h : consumeRatchet state.secretTree index contentType reuseGuard cs = .ok result) :
      RatchetStep cs state [sentUse state.groupContext.epoch index contentType reuseGuard result]
        { state with secretTree := result.newTree }
  | commit {state next : ClientState cs.signature}
      (hepoch : next.groupContext.epoch = state.groupContext.epoch + 1)
      (hhistorical : next.historicalReceiverData = addHistoricalReceiverData state) :
      RatchetStep cs state [] next
  | other {state next : ClientState cs.signature}
      (hepoch : next.groupContext.epoch = state.groupContext.epoch)
      (htree : next.secretTree = state.secretTree)
      (hhistorical : next.historicalReceiverData = state.historicalReceiverData) :
      RatchetStep cs state [] next

/-- A run with the keys it was given, in order. -/
inductive RatchetRun (cs : CiphersuiteImpl) (state : ClientState cs.signature) :
    List Use → ClientState cs.signature → Prop
  | refl : RatchetRun cs state [] state
  | step {uses uses' : List Use} {next next' : ClientState cs.signature}
      (h : RatchetRun cs state uses next) (hstep : RatchetStep cs next uses' next') :
      RatchetRun cs state (uses ++ uses') next'

/-- Where a run has an epoch's tree: in the state while the epoch is current, and
among the retained epochs later, if it is retained. -/
def Holds {s : Signature} (epoch : ℤ) (tree : SecretTree) (state : ClientState s) : Prop :=
  state.groupContext.epoch = epoch ∧ state.secretTree = tree ∨
    epoch < state.groupContext.epoch ∧
      ∀ receiverData, state.historicalReceiverData.get epoch = some receiverData →
        receiverData.secretTree = tree

/-- The uses of one epoch. -/
def usesOf (epoch : ℤ) (uses : List Use) : List Use := uses.filter fun use => use.epoch = epoch

theorem usesOf_eq {epoch : ℤ} {use : Use} (h : use.epoch = epoch) : usesOf epoch [use] = [use] := by
  simp [usesOf, h]

theorem usesOf_ne {epoch : ℤ} {use : Use} (h : use.epoch ≠ epoch) : usesOf epoch [use] = [] := by
  simp [usesOf, h]

/-- What one step does to the tree of an epoch: nothing, a snapshot, or one
generation given out. -/
theorem RatchetStep.holds (hkdf : RefusesEmptySecret cs.kdf) {epoch : ℤ}
    {state next : ClientState cs.signature} {uses : List Use}
    (hstep : RatchetStep cs state uses next) (hholds : Holds epoch tree state)
    (hchains : OnChains cs tree₀ tree) :
    ∃ tree', Holds epoch tree' next ∧ OnChains cs tree₀ tree' ∧
      (usesOf epoch uses = [] ∧ freeSlots tree' ⊆ freeSlots tree ∨
        ∃ use, usesOf epoch uses = [use] ∧ use.slot ∈ freeSlots tree ∧
          freeSlots tree' ⊆ freeSlots tree \ {use.slot} ∧
          GivenBy cs tree₀ use.slot use.reuseGuard use.key use.nonce) := by
  cases hstep with
  | receive h =>
    rcases hholds with ⟨hepoch, rfl⟩ | ⟨hlt, hdata⟩
    · obtain ⟨hgen, node, ratchet, hnode, htree, hgives⟩ := ratchetToGeneration_gives hkdf h
      obtain ⟨hchains', hmem, hsub, hgiven⟩ := hchains.give hnode htree hgives
      rw [hgen] at hmem hsub hgiven
      exact ⟨_, .inl ⟨hepoch, rfl⟩, hchains', .inr ⟨_, usesOf_eq hepoch, hmem, hsub, hgiven⟩⟩
    · exact ⟨tree, .inr ⟨hlt, hdata⟩, hchains, .inl
        ⟨usesOf_ne hlt.ne', fun _ hs => hs⟩⟩
  | receiveRetained hlt hget h =>
    rename_i epoch' receiverData senderData contentType result
    rcases hholds with ⟨hepoch, rfl⟩ | ⟨hlt', hdata⟩
    · exact ⟨_, .inl ⟨hepoch, rfl⟩, hchains, .inl
        ⟨usesOf_ne (hepoch ▸ hlt).ne, fun _ hs => hs⟩⟩
    by_cases he : epoch' = epoch
    · obtain rfl := he
      obtain rfl := hdata receiverData hget
      obtain ⟨hgen, node, ratchet, hnode, htree, hgives⟩ := ratchetToGeneration_gives hkdf h
      obtain ⟨hchains', hmem, hsub, hgiven⟩ := hchains.give hnode htree hgives
      rw [hgen] at hmem hsub hgiven
      refine ⟨_, .inr ⟨hlt', fun data hnew => ?_⟩, hchains', .inr ⟨_, usesOf_eq rfl, hmem,
        hsub, hgiven⟩⟩
      rw [Record.get_set_self] at hnew
      rw [← Option.some.inj hnew]
    · refine ⟨tree, .inr ⟨hlt', fun data hnew => ?_⟩, hchains, .inl
        ⟨usesOf_ne he, fun _ hs => hs⟩⟩
      rw [Record.get_set_of_ne _ _ (Ne.symm he)] at hnew
      exact hdata data hnew
  | send h =>
    rcases hholds with ⟨hepoch, rfl⟩ | ⟨hlt, hdata⟩
    · obtain ⟨node, ratchet, hnode, -, -, htree, hgives⟩ := consumeRatchet_gives hkdf h
      obtain ⟨hchains', hmem, hsub, hgiven⟩ := hchains.give hnode htree hgives
      exact ⟨_, .inl ⟨hepoch, rfl⟩, hchains', .inr ⟨_, usesOf_eq hepoch, hmem, hsub, hgiven⟩⟩
    · exact ⟨tree, .inr ⟨hlt, hdata⟩, hchains, .inl
        ⟨usesOf_ne hlt.ne', fun _ hs => hs⟩⟩
  | commit hepoch' hhistorical =>
    rcases hholds with ⟨hepoch, rfl⟩ | ⟨hlt, hdata⟩
    · refine ⟨_, .inr ⟨by omega, fun data hget => ?_⟩, hchains.strip, .inl ⟨rfl, freeSlots_strip⟩⟩
      rw [hhistorical] at hget
      have := get_addHistoricalReceiverData hget
      rwa [if_pos hepoch.symm] at this
    · refine ⟨tree, .inr ⟨by omega, fun data hget => ?_⟩, hchains, .inl ⟨rfl, fun _ hs => hs⟩⟩
      rw [hhistorical] at hget
      have := get_addHistoricalReceiverData hget
      rw [if_neg hlt.ne] at this
      exact hdata data this
  | other hepoch' htree hhistorical =>
    refine ⟨tree, ?_, hchains, .inl ⟨rfl, fun _ hs => hs⟩⟩
    unfold Holds
    rw [hepoch', htree, hhistorical]
    exact hholds

/-- What a run gives of the epoch it starts in comes off the chains of the tree
it starts with, and spends it. -/
theorem RatchetRun.spends (hkdf : RefusesEmptySecret cs.kdf) {state next : ClientState cs.signature}
    {uses : List Use} (hrun : RatchetRun cs state uses next)
    (hchains : OnChains cs state.secretTree state.secretTree) :
    ∃ tree, Holds state.groupContext.epoch tree next ∧ OnChains cs state.secretTree tree ∧
      Spends (freeSlots state.secretTree)
        ((usesOf state.groupContext.epoch uses).map Use.slot) (freeSlots tree) ∧
      ∀ use ∈ usesOf state.groupContext.epoch uses,
        GivenBy cs state.secretTree use.slot use.reuseGuard use.key use.nonce := by
  induction hrun with
  | refl => exact ⟨_, .inl ⟨rfl, rfl⟩, hchains, .refl, fun use huse => nomatch huse⟩
  | step h hstep ih =>
    obtain ⟨tree, hholds, hon, hspends, hgiven⟩ := ih
    obtain ⟨tree', hholds', hon', hcase⟩ := hstep.holds hkdf hholds hon
    refine ⟨tree', hholds', hon', ?_⟩
    rw [usesOf, List.filter_append, ← usesOf, ← usesOf]
    rcases hcase with ⟨hnone, hsub⟩ | ⟨use, huse, hmem, hsub, hnew⟩
    · rw [hnone, List.append_nil]
      exact ⟨hspends.lose hsub, hgiven⟩
    · rw [huse, List.map_append]
      refine ⟨hspends.spend hmem hsub, fun u hu => ?_⟩
      rcases List.mem_append.mp hu with hold | hlast
      · exact hgiven u hold
      · rw [List.mem_singleton.mp hlast]
        exact hnew

/-! ## The sender -/

/-- The uses of one ratchet of an epoch. -/
def ratchetUses (epoch index : ℤ) (name : RatchetName) (uses : List Use) : List Use :=
  uses.filter fun use => use.epoch = epoch ∧ use.slot.index = index ∧ use.slot.ratchet = name

/-- The generation a ratchet is at. -/
def generationAt (tree : SecretTree) (index : ℤ) (name : RatchetName) : Option ℕ :=
  (ratchetsAt tree index).map fun node => (node.ratchet name).generation

theorem generationAt_updateArray {index : ℤ} {node : SecretTreeNode} {contentType : ContentTypeName}
    {ratchet : GenerationSecret} (hnode : ratchetsAt tree index = some node) (i : ℤ)
    (name : RatchetName) :
    generationAt (updateArray tree index (some (withRatchet node contentType ratchet))) i name =
      if i = index ∧ name = ratchetName contentType then some ratchet.generation
      else generationAt tree i name := by
  unfold generationAt
  rw [ratchetsAt_updateArray hnode]
  by_cases hi : i = index
  · rw [if_pos hi, Option.map_some, ratchet_withRatchet, hi, hnode]
    by_cases hname : name = ratchetName contentType
    · rw [if_pos hname, if_pos ⟨rfl, hname⟩]
    · rw [if_neg hname, if_neg fun h => hname h.2]
      rfl
  · rw [if_neg hi, if_neg fun h => hi h.1]

theorem ratchetUses_append (epoch index : ℤ) (name : RatchetName) (uses uses' : List Use) :
    ratchetUses epoch index name (uses ++ uses') =
      ratchetUses epoch index name uses ++ ratchetUses epoch index name uses' :=
  List.filter_append ..

theorem ratchetUses_singleton (epoch index : ℤ) (name : RatchetName) (use : Use) :
    ratchetUses epoch index name [use] =
      if use.epoch = epoch ∧ use.slot.index = index ∧ use.slot.ratchet = name then [use] else [] := by
  simp only [ratchetUses, List.filter_cons, List.filter_nil, decide_eq_true_eq]

/-- A ratchet a member only sends on is at the number of its sends, and each of
them was of the generation that counts the ones before it. -/
structure Counts {s : Signature} (epoch index : ℤ) (name : RatchetName) (sends : List Use)
    (state : ClientState s) : Prop where
  generations : sends.map (fun use => use.slot.generation) = List.range sends.length
  le : epoch ≤ state.groupContext.epoch
  current : state.groupContext.epoch = epoch →
    ∀ g, generationAt state.secretTree index name = some g → g = sends.length

theorem RatchetStep.counts (hkdf : RefusesEmptySecret cs.kdf) {epoch index : ℤ} {name : RatchetName}
    {state next : ClientState cs.signature} {sends uses : List Use}
    (hstep : RatchetStep cs state uses next) (hcounts : Counts epoch index name sends state)
    (hsent : ∀ use ∈ ratchetUses epoch index name uses, use.received = false) :
    Counts epoch index name (sends ++ ratchetUses epoch index name uses) next := by
  have hidle : ∀ {next : ClientState cs.signature}, ratchetUses epoch index name uses = [] →
      epoch ≤ next.groupContext.epoch → (next.groupContext.epoch = epoch →
        ∀ g, generationAt next.secretTree index name = some g → g = sends.length) →
      Counts epoch index name (sends ++ ratchetUses epoch index name uses) next := by
    intro next hnone hle hcurrent
    rw [hnone, List.append_nil]
    exact ⟨hcounts.generations, hle, hcurrent⟩
  have hreceived : ∀ {use : Use}, use.received = true → uses = [use] →
      ratchetUses epoch index name uses = [] := by
    rintro use huse rfl
    rw [ratchetUses_singleton] at hsent ⊢
    split_ifs at hsent ⊢
    · rw [hsent use (List.mem_singleton_self use)] at huse
      cases huse
    · rfl
  cases hstep with
  | receive h =>
    obtain ⟨hgen, node, ratchet, hnode, htree, -⟩ := ratchetToGeneration_gives hkdf h
    have hnone := hreceived rfl rfl
    refine hidle hnone hcounts.le fun hepoch g hg => hcounts.current hepoch g ?_
    rw [htree, generationAt_updateArray hnode] at hg
    rw [ratchetUses_singleton] at hnone
    split_ifs at hg hnone with hplace hother
    · exact absurd ⟨hepoch, hplace.1.symm, hplace.2.symm⟩ hother
    · exact hg
  | receiveRetained hlt hget h => exact hidle (hreceived rfl rfl) hcounts.le hcounts.current
  | send h =>
    obtain ⟨node, ratchet, hnode, hgen, hnext, htree, -⟩ := consumeRatchet_gives hkdf h
    rename_i index' contentType reuseGuard result
    rw [ratchetUses_singleton]
    split_ifs with hplace
    · -- A send on the ratchet itself.
      obtain ⟨hepoch, rfl, rfl⟩ := hplace
      have hlen : result.generation = sends.length := by
        apply hcounts.current hepoch
        unfold generationAt
        rw [hgen, show (sentUse state.groupContext.epoch index' contentType reuseGuard
          result).slot.index = index' from rfl, hnode]
        rfl
      refine ⟨?_, hcounts.le, fun _ g hg => ?_⟩
      · rw [List.map_append, hcounts.generations, List.length_append, List.length_singleton,
          List.range_succ, List.map_singleton, ← hlen]
        rfl
      · rw [htree, generationAt_updateArray hnode, if_pos ⟨rfl, rfl⟩] at hg
        rw [List.length_append, List.length_singleton, ← hlen, ← hnext]
        exact (Option.some.inj hg).symm
    · rw [List.append_nil]
      refine ⟨hcounts.generations, hcounts.le, fun hepoch g hg => hcounts.current hepoch g ?_⟩
      rw [htree, generationAt_updateArray hnode] at hg
      split_ifs at hg with hsame
      · exact absurd ⟨hepoch, hsame.1.symm, hsame.2.symm⟩ hplace
      · exact hg
  | commit hepoch hhistorical =>
    have hle := hcounts.le
    exact hidle rfl (by omega) fun he => by omega
  | other hepoch htree hhistorical =>
    refine hidle rfl (hepoch ▸ hcounts.le) fun he g hg => hcounts.current (hepoch ▸ he) g ?_
    rwa [htree] at hg

theorem RatchetRun.counts (hkdf : RefusesEmptySecret cs.kdf) {index : ℤ} {name : RatchetName}
    {state next : ClientState cs.signature} {uses : List Use} (hrun : RatchetRun cs state uses next)
    (hstart : ∀ g, generationAt state.secretTree index name = some g → g = 0)
    (hsent : ∀ use ∈ ratchetUses state.groupContext.epoch index name uses, use.received = false) :
    Counts state.groupContext.epoch index name
      (ratchetUses state.groupContext.epoch index name uses) next := by
  induction hrun with
  | refl => exact ⟨rfl, le_rfl, fun _ => hstart⟩
  | step h hstep ih =>
    rw [ratchetUses_append] at hsent ⊢
    have hold := ih fun use huse => hsent use (List.mem_append_left _ huse)
    exact hstep.counts hkdf hold fun use huse => hsent use (List.mem_append_right _ huse)

theorem usesOf_of_ratchetUses {epoch index : ℤ} {name : RatchetName} {uses : List Use} {use : Use}
    (h : use ∈ ratchetUses epoch index name uses) :
    use ∈ usesOf epoch uses ∧ use.slot.index = index ∧ use.slot.ratchet = name := by
  simp only [ratchetUses, List.mem_filter, decide_eq_true_eq] at h
  obtain ⟨hmem, hepoch, hindex, hname⟩ := h
  exact ⟨List.mem_filter.mpr ⟨hmem, by simpa using hepoch⟩, hindex, hname⟩

/-- Whatever a member is given to receive with is what the sender had at that
generation, its sends on the ratchet counted from zero, and no generation of a
ratchet is given twice, in the epoch or from its snapshot later. -/
theorem ratchetToGeneration_right_key_once (hkdf : RefusesEmptySecret cs.kdf) {leafWidth : ℚ}
    {encryptionSecret : Bytes} {state next sender senderNext : ClientState cs.signature}
    {uses sent : List Use}
    (hcreate : createSecretTree leafWidth encryptionSecret cs.kdf = .ok state.secretTree)
    (hrun : RatchetRun cs state uses next) (hsender : sender.secretTree = state.secretTree)
    (hsends : RatchetRun cs sender sent senderNext) :
    (∀ use ∈ usesOf state.groupContext.epoch uses,
      (∀ send ∈ ratchetUses sender.groupContext.epoch use.slot.index use.slot.ratchet sent,
        send.received = false) →
      ∀ send, (ratchetUses sender.groupContext.epoch use.slot.index use.slot.ratchet
          sent)[use.slot.generation]? = some send →
        send.reuseGuard = use.reuseGuard → use.key = send.key ∧ use.nonce = send.nonce) ∧
    ((usesOf state.groupContext.epoch uses).map Use.slot).Nodup := by
  have hchains := createSecretTree_onChains hcreate
  obtain ⟨tree, -, -, hspends, hgiven⟩ := hrun.spends hkdf hchains
  refine ⟨fun use huse hsent send hsend hguard => ?_, hspends.nodup⟩
  have hstart : ∀ g, generationAt sender.secretTree use.slot.index use.slot.ratchet = some g →
      g = 0 := by
    intro g hg
    obtain ⟨node, hnode, rfl⟩ := Option.map_eq_some_iff.mp hg
    exact (createSecretTree_start hcreate (hsender ▸ hnode) _).1
  have hcounts := hsends.counts hkdf hstart hsent
  -- The send found at the position of a generation is of that generation.
  have hgeneration : send.slot.generation = use.slot.generation := by
    obtain ⟨hlt, -⟩ := List.getElem?_eq_some_iff.mp hsend
    have h := congrArg (·[use.slot.generation]?) hcounts.generations
    simp only [List.getElem?_map, hsend, Option.map_some] at h
    rw [List.getElem?_range hlt] at h
    exact Option.some.inj h
  obtain ⟨hmem, hindex, hname⟩ := usesOf_of_ratchetUses (List.mem_of_getElem? hsend)
  have hslot : send.slot = use.slot := Slot.ext hindex hname hgeneration
  obtain ⟨-, -, -, -, hsentBy⟩ := hsends.spends hkdf (hsender ▸ hchains)
  have hsend' := hsentBy send hmem
  rw [hsender, hslot, hguard] at hsend'
  exact (hgiven use huse).unique hsend'

/-- The plain suite, its key derivation refusing an empty secret. -/
def strictSuite : CiphersuiteImpl where
  hash := plainHash
  hpke := plainSuite.hpke
  signature := plainSuite.signature
  kdf := {
    extract := fun salt ikm => pure (salt ++ ikm)
    expand := fun secret info _ =>
      if secret = [] then throw (validationError "expand") else pure (info ++ secret)
    size := 1 }
  name := plainSuite.name

/-- A member of a group of one, with a secret tree. -/
def soleMember (tree : SecretTree) : ClientState strictSuite.signature where
  groupContext := {
    version := .mls10
    cipherSuite := .MLS_128_DHKEMX25519_AES128GCM_SHA256_Ed25519
    groupId := []
    epoch := 0
    treeHash := []
    confirmedTranscriptHash := []
    extensions := [] }
  keySchedule := ⟨[], [], [], [], [], [], [], [], []⟩
  secretTree := tree
  ratchetTree := []
  privatePath := ⟨0, .empty⟩
  signaturePrivateKey := ([] : Bytes)
  unappliedProposals := .empty
  pendingUpdateKeys := none
  confirmationTag := []
  historicalReceiverData := .empty
  groupActiveState := .active
  clientConfig := {
    keyRetentionConfig := defaultKeyRetentionConfig
    lifetimeConfig := defaultLifetimeConfig
    keyPackageEqualityConfig := defaultKeyPackageEqualityConfig
    paddingConfig := .padUntilLength 256
    authService := unsafeAcceptAllAuthenticationService
    supportedCustomProposalTypes := []
    maxPendingProposals := defaultMaxPendingProposals }

/-- The second message arrives first: each is received with the key it was sent with, and
the two do not come off one slot. -/
theorem ratchetToGeneration_out_of_order : ∃ tree received late first second next senderNext,
    RatchetRun strictSuite (soleMember tree) [received, late] next ∧
      RatchetRun strictSuite (soleMember tree) [first, second] senderNext ∧
      received.slot.generation = 1 ∧ late.slot.generation = 0 ∧
      (received.key = second.key ∧ received.nonce = second.nonce) ∧
      (late.key = first.key ∧ late.nonce = first.nonce) ∧ received.slot ≠ late.slot := by
  obtain ⟨result, h⟩ := exists_ok_of_toBool (x := do
    let tree ← createSecretTree 1 [7] strictSuite.kdf
    let received ← ratchetToGeneration tree ⟨0, 1, [1, 2, 3, 4]⟩ .application
      defaultKeyRetentionConfig strictSuite
    let late ← ratchetToGeneration received.newTree ⟨0, 0, [5, 6, 7, 8]⟩ .application
      defaultKeyRetentionConfig strictSuite
    let first ← consumeRatchet tree 0 .application [5, 6, 7, 8] strictSuite
    let second ← consumeRatchet first.newTree 0 .application [1, 2, 3, 4] strictSuite
    pure (late.generation, second.generation)) (by decide +kernel)
  obtain ⟨tree, htree, h⟩ := bind_eq_ok.mp h
  obtain ⟨received, hreceived, h⟩ := bind_eq_ok.mp h
  obtain ⟨late, hlate, h⟩ := bind_eq_ok.mp h
  obtain ⟨first, hfirst, h⟩ := bind_eq_ok.mp h
  obtain ⟨second, hsecond, h⟩ := bind_eq_ok.mp h
  have hkdf : RefusesEmptySecret strictSuite.kdf := fun info length derived hd => nomatch hd
  have hrun : RatchetRun strictSuite (soleMember tree) (([] ++ [_]) ++ [_]) _ :=
    .step (.step .refl (.receive hreceived)) (.receive hlate)
  have hsends : RatchetRun strictSuite (soleMember tree) (([] ++ [_]) ++ [_]) _ :=
    .step (.step .refl (.send hfirst)) (.send hsecond)
  obtain ⟨hkeys, hslots⟩ := ratchetToGeneration_right_key_once hkdf htree hrun rfl hsends
  have hsent : ∀ send ∈ ratchetUses 0 0 .application
      [sentUse 0 0 .application [5, 6, 7, 8] first, sentUse 0 0 .application [1, 2, 3, 4] second],
      send.received = false := by
    intro send hsend
    rcases List.mem_cons.mp (List.mem_filter.mp hsend).1 with rfl | hlast
    · rfl
    · rw [List.mem_singleton.mp hlast]
      rfl
  refine ⟨tree, _, _, _, _, _, _, hrun, hsends, rfl, rfl, ?_, ?_, ?_⟩
  · exact hkeys (receivedUse 0 ⟨0, 1, [1, 2, 3, 4]⟩ .application received)
      (by simp [usesOf, receivedUse, soleMember]) hsent _ rfl rfl
  · exact hkeys (receivedUse 0 ⟨0, 0, [5, 6, 7, 8]⟩ .application late)
      (by simp [usesOf, receivedUse, soleMember]) hsent _ rfl rfl
  · exact fun h => (List.nodup_cons.mp hslots).1 (List.mem_singleton.mpr h)

end WebcryptoMls
