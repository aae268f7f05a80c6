import WebcryptoMls.EpochRuns
import WebcryptoMls.GroupRequirements
import WebcryptoMls.MessageDelivery
import WebcryptoMls.RetainedEpochs

/-!
# What a member holds of an epoch

In an epoch a member reads the epoch's messages with the ratchets of its secret tree, and
afterwards with those it retains. Whatever else the member does, its handshake messages and its
later epochs included, leaves the application ratchets of the epoch alone.
-/
namespace WebcryptoMls
open Records

/-! ## Application ratchets -/

/-- The trees have the same application ratchets. -/
def SameApplication (tree later : SecretTree) : Prop :=
  ∀ index, (ratchetsAt later index).map SecretTreeNode.application =
    (ratchetsAt tree index).map SecretTreeNode.application

theorem SameApplication.refl (tree : SecretTree) : SameApplication tree tree := fun _ => rfl

theorem sameApplication_strip (tree : SecretTree) :
    SameApplication tree (stripHandshakeRatchets tree) := by
  intro index
  rw [ratchetsAt_stripHandshakeRatchets, Option.map_map]
  rfl

theorem sameApplication_updateArray {tree : SecretTree} {index : ℤ} {node : SecretTreeNode}
    {contentType : ContentTypeName} {next : GenerationSecret}
    (hnode : ratchetsAt tree index = some node) (hne : contentType ≠ .application) :
    SameApplication tree (updateArray tree index (some (withRatchet node contentType next))) := by
  intro other
  rw [ratchetsAt_updateArray hnode]
  split_ifs with heq
  · rw [heq, hnode, withRatchet, if_neg hne]
    rfl
  · rfl

section
variable {cs : CiphersuiteImpl} {root : Bytes} {tree later : SecretTree} {i : ℕ} {w : Window}

theorem RatchetAt.of_sameApplication (h : RatchetAt cs root tree i .application w)
    (hsame : SameApplication tree later) : RatchetAt cs root later i .application w := by
  obtain ⟨node, hnode, hratchet⟩ := h.exists_node
  have happlication := hsame (leafToNodeIndex i)
  rw [hnode, Option.map_some, Option.map_eq_some_iff] at happlication
  obtain ⟨node', hnode', heq⟩ := happlication
  refine ⟨node', hnode', ?_⟩
  change OnChain cs root node'.application ∧ Tracks cs node'.application w
  rw [heq]
  exact hratchet

theorem consumeRatchet_newTree {index : ℤ} {contentType : ContentTypeName} {reuseGuard : Bytes}
    {result : ConsumeRatchetResult}
    (h : consumeRatchet tree index contentType reuseGuard cs = .ok result) :
    ∃ node next, ratchetsAt tree index = some node ∧
      result.newTree = updateArray tree index (some (withRatchet node contentType next)) := by
  unfold consumeRatchet at h
  cases hnode : ratchetsAt tree index with
  | none =>
    rw [hnode] at h
    cases h
  | some node =>
    rw [hnode] at h
    obtain ⟨_, -, h⟩ := bind_eq_ok.mp h
    obtain ⟨_, -, h⟩ := bind_eq_ok.mp h
    obtain ⟨_, -, h⟩ := bind_eq_ok.mp h
    obtain rfl := Except.ok.inj h
    exact ⟨node, _, rfl, rfl⟩

theorem protect_sameApplication {senderDataSecret authenticatedData reuseGuard : Bytes}
    {groupContext : GroupContext} {content : PrivateMessageContent} {leafIndex : ℕ}
    {config : PaddingConfig} {result : ProtectResult}
    (h : protect senderDataSecret authenticatedData groupContext tree content leafIndex config
      reuseGuard cs = .ok result) (hne : content.info.contentType ≠ .application) :
    SameApplication tree result.tree := by
  obtain ⟨consumed, hconsumed, h⟩ := bind_eq_ok.mp h
  obtain ⟨_, -, h⟩ := bind_eq_ok.mp h
  obtain ⟨_, -, h⟩ := bind_eq_ok.mp h
  obtain ⟨_, -, h⟩ := bind_eq_ok.mp h
  obtain ⟨_, -, h⟩ := bind_eq_ok.mp h
  obtain rfl := Except.ok.inj h
  obtain ⟨node, next, hnode, htree⟩ := consumeRatchet_newTree hconsumed
  dsimp only
  rw [htree]
  exact sameApplication_updateArray hnode hne

theorem unprotectPrivateMessage_sameApplication {senderDataSecret : Bytes} {pm : PrivateMessage}
    {ratchetTree : RatchetTree} {groupContext : GroupContext} {config : KeyRetentionConfig}
    {read : UnprotectResult}
    (h : unprotectPrivateMessage senderDataSecret pm tree ratchetTree groupContext config cs =
      .ok read) (hne : pm.contentType ≠ .application) : SameApplication tree read.tree := by
  obtain ⟨senderData, -, h⟩ := bind_eq_ok.mp h
  cases senderData with
  | none => cases h
  | some senderData =>
    dsimp only at h
    obtain ⟨_, -, h⟩ := bind_eq_ok.mp h
    obtain ⟨ratcheted, hratcheted, h⟩ := bind_eq_ok.mp h
    obtain ⟨_, -, h⟩ := bind_eq_ok.mp h
    obtain ⟨_, -, h⟩ := bind_eq_ok.mp h
    obtain ⟨pmc, -, h⟩ := bind_eq_ok.mp h
    cases pmc with
    | none => cases h
    | some pmc =>
      dsimp only at h
      obtain ⟨_, -, h⟩ := bind_eq_ok.mp h
      obtain ⟨valid, -, h⟩ := bind_eq_ok.mp h
      split_ifs at h
      obtain rfl := Except.ok.inj h
      obtain ⟨node, next, hnode, htree⟩ := ratchetToGeneration_newTree hratcheted
      dsimp only
      rw [htree]
      exact sameApplication_updateArray hnode hne

end

/-! ## What leaves the application ratchets alone -/

section
variable {cs : CiphersuiteImpl} {state : ClientState cs.signature}

theorem sendProposal_sameApplication {publicMessage : Bool} {proposal : Proposal}
    {authenticatedData : Bytes} {coins : MessageCoins} {currentTime : ℤ}
    {sent : SentProposal cs.signature}
    (h : sendProposal cs state publicMessage proposal authenticatedData coins currentTime =
      .ok sent) :
    SameApplication state.secretTree sent.newState.secretTree ∧
      sent.newState.historicalReceiverData = state.historicalReceiverData := by
  obtain ⟨_, -, h⟩ := bind_eq_ok.mp h
  obtain ⟨_, -, h⟩ := bind_eq_ok.mp h
  obtain ⟨_, -, h⟩ := bind_eq_ok.mp h
  obtain ⟨_, -, h⟩ := bind_eq_ok.mp h
  split at h
  · obtain ⟨publicMessage, -, h⟩ := bind_eq_ok.mp h
    obtain ⟨ref, -, h⟩ := bind_eq_ok.mp h
    rw [← Except.ok.inj h]
    exact ⟨.refl _, rfl⟩
  · obtain ⟨result, hresult, h⟩ := bind_eq_ok.mp h
    rw [← Except.ok.inj h]
    obtain ⟨auth, -, hresult⟩ := bind_eq_ok.mp hresult
    obtain ⟨protectedMessage, hprotected, hresult⟩ := bind_eq_ok.mp hresult
    obtain ⟨ref, -, hresult⟩ := bind_eq_ok.mp hresult
    obtain rfl := Except.ok.inj hresult
    exact ⟨protect_sameApplication hprotected ContentTypeName.noConfusion, rfl⟩

theorem createUpdateProposal_sameApplication {publicMessage : Bool}
    {options : CreateUpdateProposalOptions cs.signature} {coins : UpdateCoins cs} {currentTime : ℤ}
    {result : CreateProposalResult cs.signature}
    (h : createUpdateProposal cs state publicMessage options coins currentTime = .ok result) :
    SameApplication state.secretTree result.newState.secretTree ∧
      result.newState.historicalReceiverData = state.historicalReceiverData := by
  obtain ⟨_, -, h⟩ := bind_eq_ok.mp h
  dsimp only at h
  split at h
  · cases h
  · obtain ⟨resolved, -, h⟩ := bind_eq_ok.mp h
    obtain ⟨hpkePublicKey, -, h⟩ := bind_eq_ok.mp h
    obtain ⟨leafNode, -, h⟩ := bind_eq_ok.mp h
    obtain ⟨sent, hsent, h⟩ := bind_eq_ok.mp h
    obtain ⟨hpkePrivateKey, -, h⟩ := bind_eq_ok.mp h
    rw [← Except.ok.inj h]
    exact sendProposal_sameApplication hsent

theorem createApplicationMessage_history {message authenticatedData : Bytes} {coins : MessageCoins}
    {result : CreateApplicationMessageResult cs.signature}
    (h : createApplicationMessage cs state message authenticatedData coins = .ok result) :
    result.newState.historicalReceiverData = state.historicalReceiverData := by
  obtain ⟨_, -, h⟩ := bind_eq_ok.mp h
  obtain ⟨protectedMessage, -, h⟩ := bind_eq_ok.mp h
  rw [← Except.ok.inj h]

theorem discardPendingProposal_keeps (state : ClientState cs.signature) (ref : Bytes) :
    (discardPendingProposal state ref).secretTree = state.secretTree ∧
      (discardPendingProposal state ref).historicalReceiverData = state.historicalReceiverData := by
  unfold discardPendingProposal
  split_ifs <;> exact ⟨rfl, rfl⟩

/-- A private message of a later epoch is refused. -/
theorem processMessage_epoch_le {pm : PrivateMessage} {pskIndex : PskIndex}
    {action : IncomingMessageCallback} {currentTime : ℤ} {r : ProcessMessageResult cs.signature}
    (h : processMessage cs (.mls_private_message pm) state pskIndex action currentTime = .ok r) :
    pm.epoch ≤ state.groupContext.epoch := by
  change privateMessageResult cs state pm pskIndex action currentTime = .ok r at h
  obtain ⟨_, -, h⟩ := bind_eq_ok.mp h
  split_ifs at h with hgroup hfuture hformer
  · obtain ⟨_, -, h⟩ := bind_eq_ok.mp h
    cases h
  · exact hformer.le
  · exact not_lt.mp hfuture

theorem afterReading_sameApplication {message : MlsHandshakeMessage}
    (h : ∀ pm, message = .mls_private_message pm → pm.contentType ≠ .application) :
    SameApplication state.secretTree (afterReading cs state message).secretTree := by
  cases message with
  | mls_public_message pm => exact .refl _
  | mls_private_message pm =>
    unfold afterReading readSecretTree
    dsimp only
    split
    · exact unprotectPrivateMessage_sameApplication ‹_› (h pm rfl)
    · exact .refl _

/-! ## From epoch to epoch -/

/-- A commit ends the state's epoch, which joins those it retains. -/
structure EndsEpoch (state later : ClientState cs.signature) : Prop where
  groupId : later.groupContext.groupId = state.groupContext.groupId
  epoch : later.groupContext.epoch = state.groupContext.epoch + 1
  history : later.historicalReceiverData = addHistoricalReceiverData state
  clientConfig : later.clientConfig = state.clientConfig

theorem superseded_of_get {data : EpochReceiverData}
    (h : (addHistoricalReceiverData state).get state.groupContext.epoch = some data) :
    data = supersededEpoch state := by
  have hset : (state.historicalReceiverData.set state.groupContext.epoch
      (supersededEpoch state)).get state.groupContext.epoch = some data := by
    simp only [addHistoricalReceiverData, removeOldHistoricalReceiverData] at h
    split_ifs at h
    · cases h
    · exact Record.get_of_get_latest h
    · exact h
  rw [Record.get_set_self] at hset
  exact (Option.some.inj hset).symm

/-- Of the context a commit's proposals change the extensions alone. -/
theorem applyProposals_groupId {proposals : List ProposalOrRef} {committerLeafIndex : Option ℕ}
    {pskSearch : PskIndex} {sentByClient : Bool} {newMemberLeafNode : Option LeafNode}
    {senderType : SenderTypeName} {currentTime : ℤ} {result : ApplyProposalsResult}
    (h : applyProposals cs state proposals committerLeafIndex pskSearch sentByClient
      newMemberLeafNode senderType currentTime = .ok result) :
    (groupContextWithExtensions state.groupContext result.additionalResult).groupId =
      state.groupContext.groupId := by
  obtain ⟨allProposals, hall, -, -⟩ := applyProposals_eq_ok h
  rw [applyProposals_context hall h, groupContextAfterExtensions]
  split_ifs
  · rfl
  · rfl

theorem nextEpochContext_groupId {gc next : GroupContext} {wireformat : WireformatName}
    {content : FramedContent} {signature updatedTreeHash confirmationTag : Bytes} {h : Hash}
    (hnext : nextEpochContext gc wireformat content signature updatedTreeHash confirmationTag h =
      .ok next) : next.groupId = gc.groupId := by
  obtain ⟨_, rfl⟩ := nextEpochContext_eq_ok hnext
  rfl

theorem createCommit_endsEpoch {pskIndex : PskIndex} {options : CreateCommitOptions cs.signature}
    {coins : CommitCoins} {currentTime : ℤ} {result : CreateCommitResult cs.signature}
    (h : createCommit cs state pskIndex options coins currentTime = .ok result) :
    EndsEpoch state result.newState := by
  obtain ⟨p, -, hp⟩ := createCommit_parts h
  refine ⟨?_, ?_, hp.historicalReceiverData, hp.clientConfig⟩
  · rw [nextEpochContext_groupId hp.groupContext, applyProposals_groupId hp.applied]
  · rw [nextEpochContext_epoch hp.groupContext, applyProposals_epoch hp.applied]

theorem FollowedCommit.Follows.endsEpoch {f : FollowedCommit cs} {pskIndex : PskIndex}
    {currentTime : ℤ} (h : f.Follows state pskIndex currentTime) :
    EndsEpoch state (f.newState state) := by
  obtain ⟨-, hcontext, -, -⟩ := deriveNextEpoch_eq_ok h.next
  exact ⟨(nextEpochContext_groupId hcontext).trans (applyProposals_groupId h.applied),
    (nextEpochContext_epoch hcontext).trans (congrArg (· + 1) (applyProposals_epoch h.applied)),
    rfl, rfl⟩

end

/-! ## Members -/

/-- What the members of an epoch share. -/
structure SharedEpoch where
  groupContext : GroupContext
  ratchetTree : RatchetTree
  senderDataSecret : Bytes
  secretTree : SecretTree

namespace SharedEpoch

/-- The secret a leaf's application ratchet starts from. -/
def root (e : SharedEpoch) (i : ℕ) : Bytes :=
  ((ratchetsAt e.secretTree (leafToNodeIndex i)).map fun node => node.application.secret).getD []

variable {cs : CiphersuiteImpl}

/-- The member at leaf `j` is in the epoch, and has the window `w i` on the messages of leaf `i`. -/
structure Present (e : SharedEpoch) (group : Set ℕ) (j : ℕ) (w : ℕ → Window)
    (state : ClientState cs.signature) : Prop where
  groupContext : state.groupContext = e.groupContext
  ratchetTree : state.ratchetTree = e.ratchetTree
  senderDataSecret : state.keySchedule.senderDataSecret = e.senderDataSecret
  leafIndex : state.privatePath.leafIndex = j
  signatureKey : ∃ leaf, leafAt e.ratchetTree j = some leaf ∧
    cs.signature.Matches state.signaturePrivateKey leaf.signaturePublicKey
  windows : ∀ i ∈ group, RatchetAt cs (e.root i) state.secretTree i .application (w i)

/-- What a member that has left the epoch reads its messages with. -/
structure Retains (cs : CiphersuiteImpl) (e : SharedEpoch) (group : Set ℕ) (w : ℕ → Window)
    (data : EpochReceiverData) : Prop where
  groupContext : data.groupContext = e.groupContext
  ratchetTree : data.ratchetTree = e.ratchetTree
  senderDataSecret : data.senderDataSecret = e.senderDataSecret
  windows : ∀ i ∈ group, RatchetAt cs (e.root i) data.secretTree i .application (w i)

/-- The member has left the epoch, and may retain what it held there. -/
structure Past (e : SharedEpoch) (group : Set ℕ) (w : ℕ → Window)
    (state : ClientState cs.signature) : Prop where
  groupId : state.groupContext.groupId = e.groupContext.groupId
  epoch : e.groupContext.epoch < state.groupContext.epoch
  retained : ∀ data, state.historicalReceiverData.get e.groupContext.epoch = some data →
    e.Retains cs group w data

inductive Member (e : SharedEpoch) (group : Set ℕ) (j : ℕ) (w : ℕ → Window)
    (state : ClientState cs.signature) : Prop
  | present (present : e.Present group j w state)
  | past (past : e.Past group w state)

variable {e : SharedEpoch} {group : Set ℕ} {j : ℕ} {w : ℕ → Window}
  {state later : ClientState cs.signature}

theorem Present.within (h : e.Present group j w state) (hstays : StaysInEpoch state later)
    (hsame : SameApplication state.secretTree later.secretTree) : e.Present group j w later where
  groupContext := hstays.groupContext.trans h.groupContext
  ratchetTree := hstays.ratchetTree.trans h.ratchetTree
  senderDataSecret := by rw [hstays.keySchedule, h.senderDataSecret]
  leafIndex := by rw [hstays.privatePath, h.leafIndex]
  signatureKey := by
    rw [hstays.signaturePrivateKey]
    exact h.signatureKey
  windows := fun i hi => (h.windows i hi).of_sameApplication hsame

theorem Present.retains (h : e.Present group j w state) :
    e.Retains cs group w (supersededEpoch state) where
  groupContext := h.groupContext
  ratchetTree := h.ratchetTree
  senderDataSecret := h.senderDataSecret
  windows := fun i hi => (h.windows i hi).of_sameApplication (sameApplication_strip _)

theorem Present.endsEpoch (h : e.Present group j w state) (hends : EndsEpoch state later) :
    e.Past group w later where
  groupId := by rw [hends.groupId, h.groupContext]
  epoch := by
    rw [hends.epoch, h.groupContext]
    exact lt_add_one _
  retained := by
    intro data hdata
    rw [hends.history, ← h.groupContext] at hdata
    rw [superseded_of_get hdata]
    exact h.retains

theorem Past.endsEpoch (h : e.Past group w state) (hends : EndsEpoch state later) :
    e.Past group w later where
  groupId := hends.groupId.trans h.groupId
  epoch := by
    rw [hends.epoch]
    exact h.epoch.trans (lt_add_one _)
  retained := by
    intro data hdata
    rw [hends.history] at hdata
    obtain ⟨hepoch, -⟩ | hdata := get_addHistoricalReceiverData_eq_some hdata
    · exact absurd hepoch h.epoch.ne
    · exact h.retained data hdata

theorem Past.within (h : e.Past group w state) (hstays : StaysInEpoch state later)
    (hhistory : later.historicalReceiverData.get e.groupContext.epoch =
      state.historicalReceiverData.get e.groupContext.epoch) : e.Past group w later where
  groupId := by rw [hstays.groupContext, h.groupId]
  epoch := by
    rw [hstays.groupContext]
    exact h.epoch
  retained := by
    rw [hhistory]
    exact h.retained

/-! ## What else a member does -/

/-- The operation sends or reads an application message of the epoch. -/
def Concerns (epoch : ℤ) (state : ClientState cs.signature) : Operation cs → Prop
  | .processMessage (.mls_private_message pm) _ _ _ =>
    pm.contentType = .application ∧ pm.epoch = epoch
  | .createApplicationMessage _ _ _ => state.groupContext.epoch = epoch
  | _ => False

theorem Member.within (h : e.Member group j w state) (hstays : StaysInEpoch state later)
    (hsame : state.groupContext.epoch = e.groupContext.epoch →
      SameApplication state.secretTree later.secretTree)
    (hhistory : later.historicalReceiverData.get e.groupContext.epoch =
      state.historicalReceiverData.get e.groupContext.epoch) : e.Member group j w later := by
  cases h with
  | present present => exact .present (present.within hstays (hsame (by rw [present.groupContext])))
  | past past => exact .past (past.within hstays hhistory)

theorem Member.endsEpoch (h : e.Member group j w state) (hends : EndsEpoch state later) :
    e.Member group j w later := by
  cases h with
  | present present => exact .past (present.endsEpoch hends)
  | past past => exact .past (past.endsEpoch hends)

theorem afterReading_staysInEpoch (message : MlsHandshakeMessage) :
    StaysInEpoch state (afterReading cs state message) := ⟨rfl, rfl, rfl, rfl, rfl, rfl, rfl⟩

/-- A message that is not late is of the state's own epoch. -/
theorem processMessage_current {pm : PrivateMessage} {pskIndex : PskIndex}
    {action : IncomingMessageCallback} {currentTime : ℤ} {r : ProcessMessageResult cs.signature}
    (h : processMessage cs (.mls_private_message pm) state pskIndex action currentTime = .ok r)
    (hcurrent : ¬IsLate state (.mls_private_message pm)) :
    pm.epoch = state.groupContext.epoch :=
  le_antisymm (processMessage_epoch_le h) (not_lt.mp hcurrent)

theorem Member.afterReading (h : e.Member group j w state) {message : MlsHandshakeMessage}
    {pskIndex : PskIndex} {action : IncomingMessageCallback} {currentTime : ℤ}
    {r : ProcessMessageResult cs.signature}
    (hr : processMessage cs message state pskIndex action currentTime = .ok r)
    (hcurrent : ¬IsLate state message)
    (hnot : ¬Concerns e.groupContext.epoch state
      (.processMessage message pskIndex action currentTime)) :
    e.Member group j w (afterReading cs state message) := by
  refine h.within (afterReading_staysInEpoch message) (fun hepoch => ?_) rfl
  refine afterReading_sameApplication fun pm hpm => ?_
  subst hpm
  intro hcontent
  exact hnot ⟨hcontent, (processMessage_current hr hcurrent).trans hepoch⟩

theorem Member.processed (h : e.Member group j w state) {message : MlsHandshakeMessage}
    {pskIndex : PskIndex} {action : IncomingMessageCallback} {currentTime : ℤ}
    {r : ProcessMessageResult cs.signature}
    (hr : processMessage cs message state pskIndex action currentTime = .ok r)
    (hnot : ¬Concerns e.groupContext.epoch state
      (.processMessage message pskIndex action currentTime)) :
    e.Member group j w r.state := by
  cases processMessage_processed hr with
  | @late pm receiverData read applicationData former retained contentType read_eq =>
    have hne : e.groupContext.epoch ≠ pm.epoch := fun heq => hnot ⟨contentType, heq.symm⟩
    refine h.within ⟨rfl, rfl, rfl, rfl, rfl, rfl, rfl⟩ (fun _ => .refl _) ?_
    exact Record.get_set_of_ne _ _ hne
  | application current =>
    exact h.afterReading hr (not_lt.mpr current.ge) hnot
  | refused current => exact h.afterReading hr current hnot
  | proposal unappliedProposals current =>
    exact (h.afterReading hr current hnot).within ⟨rfl, rfl, rfl, rfl, rfl, rfl, rfl⟩
      (fun _ => .refl _) rfl
  | removed current =>
    exact (h.afterReading hr current hnot).within ⟨rfl, rfl, rfl, rfl, rfl, rfl, rfl⟩
      (fun _ => .refl _) rfl
  | followed current f content commit follows =>
    exact (h.afterReading hr current hnot).endsEpoch follows.endsEpoch

/-- What does not concern the epoch leaves the member's windows on it as they are. -/
theorem Member.operate (h : e.Member group j w state) {op : Operation cs}
    (hop : op.run state = .ok later) (hnot : ¬Concerns e.groupContext.epoch state op) :
    e.Member group j w later := by
  cases op with
  | processMessage message pskIndex action currentTime =>
    obtain ⟨r, hr, rfl⟩ := map_eq_ok.mp hop
    exact h.processed hr hnot
  | createCommit pskIndex options coins currentTime =>
    obtain ⟨result, hresult, rfl⟩ := map_eq_ok.mp hop
    exact h.endsEpoch (createCommit_endsEpoch hresult)
  | createProposal publicMessage proposal authenticatedData coins currentTime =>
    obtain ⟨result, hresult, rfl⟩ := map_eq_ok.mp hop
    obtain ⟨sent, hsent, hresult⟩ := bind_eq_ok.mp hresult
    obtain rfl := Except.ok.inj hresult
    obtain ⟨hsame, hhistory⟩ := sendProposal_sameApplication hsent
    exact h.within (sendProposal_staysInEpoch hsent) (fun _ => hsame)
      (congrFun (congrArg Record.get hhistory) _)
  | createUpdateProposal publicMessage options coins currentTime =>
    obtain ⟨result, hresult, rfl⟩ := map_eq_ok.mp hop
    obtain ⟨hsame, hhistory⟩ := createUpdateProposal_sameApplication hresult
    exact h.within (createUpdateProposal_staysInEpoch hresult) (fun _ => hsame)
      (congrFun (congrArg Record.get hhistory) _)
  | createApplicationMessage message authenticatedData coins =>
    obtain ⟨result, hresult, rfl⟩ := map_eq_ok.mp hop
    exact h.within (createApplicationMessage_staysInEpoch hresult) (fun hepoch => absurd hepoch hnot)
      (congrFun (congrArg Record.get (createApplicationMessage_history hresult)) _)
  | discardPendingProposal ref =>
    obtain rfl := Except.ok.inj hop
    obtain ⟨htree, hhistory⟩ := discardPendingProposal_keeps state ref
    refine h.within (discardPendingProposal_staysInEpoch state ref) (fun _ => ?_)
      (congrFun (congrArg Record.get hhistory) _)
    rw [htree]
    exact .refl _

end SharedEpoch

/-- No operation changes the client's configuration. -/
theorem Operation.run_clientConfig {cs : CiphersuiteImpl} {state later : ClientState cs.signature}
    {op : Operation cs} (h : op.run state = .ok later) : later.clientConfig = state.clientConfig := by
  cases Operation.run_epochStep h with
  | within stays => exact stays.clientConfig
  | created created => exact (createCommit_endsEpoch created).clientConfig
  | followed f content commit follows => exact follows.endsEpoch.clientConfig

end WebcryptoMls
