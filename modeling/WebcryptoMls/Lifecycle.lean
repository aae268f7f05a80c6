import WebcryptoMls.CreateMessage
import WebcryptoMls.RemovedMembers

/-!
# The life of a group state

A client is an active member, is suspended by a ReInit, or is removed. Every operation on a
state looks at this before it does anything else: a removed client neither sends nor
receives, and a suspended one only reads mail of earlier epochs. An active one leaves its
kind by a commit.
-/
namespace WebcryptoMls
open FirstFree

/-! ## Operations -/

/-- What an application does with a group state. -/
inductive Operation (cs : CiphersuiteImpl) where
  | processMessage (message : MlsHandshakeMessage) (pskIndex : PskIndex)
      (action : IncomingMessageCallback) (currentTime : ℤ)
  | createCommit (pskIndex : PskIndex) (options : CreateCommitOptions cs.signature)
      (coins : CommitCoins) (currentTime : ℤ)
  | createProposal (publicMessage : Bool) (proposal : Proposal) (authenticatedData : Bytes)
      (coins : MessageCoins) (currentTime : ℤ)
  | createUpdateProposal (publicMessage : Bool)
      (options : CreateUpdateProposalOptions cs.signature) (coins : UpdateCoins cs)
      (currentTime : ℤ)
  | createApplicationMessage (message authenticatedData : Bytes) (coins : MessageCoins)
  | discardPendingProposal (ref : Bytes)

section
variable {cs : CiphersuiteImpl}

/-- The state an operation returns. -/
def Operation.run (state : ClientState cs.signature) :
    Operation cs → Except MlsError (ClientState cs.signature)
  | .processMessage message pskIndex action currentTime =>
    (WebcryptoMls.processMessage cs message state pskIndex action currentTime).map
      ProcessMessageResult.state
  | .createCommit pskIndex options coins currentTime =>
    (WebcryptoMls.createCommit cs state pskIndex options coins currentTime).map
      CreateCommitResult.newState
  | .createProposal publicMessage proposal authenticatedData coins currentTime =>
    (WebcryptoMls.createProposal cs state publicMessage proposal authenticatedData coins
      currentTime).map CreateProposalResult.newState
  | .createUpdateProposal publicMessage options coins currentTime =>
    (WebcryptoMls.createUpdateProposal cs state publicMessage options coins currentTime).map
      CreateProposalResult.newState
  | .createApplicationMessage message authenticatedData coins =>
    (WebcryptoMls.createApplicationMessage cs state message authenticatedData coins).map
      CreateApplicationMessageResult.newState
  | .discardPendingProposal ref => .ok (WebcryptoMls.discardPendingProposal state ref)

/-- The operations that send something. -/
def Operation.Sends : Operation cs → Prop
  | .processMessage _ _ _ _ => False
  | .discardPendingProposal _ => False
  | _ => True

/-- The operations that send or receive something. -/
def Operation.Speaks : Operation cs → Prop
  | .discardPendingProposal _ => False
  | _ => True

/-- The operation throws. -/
def Operation.Refused (op : Operation cs) (state : ClientState cs.signature) : Prop :=
  ∀ later, op.run state ≠ .ok later

/-- The states that operations lead to, one after the other. -/
def RunsTo (cs : CiphersuiteImpl) : ClientState cs.signature → ClientState cs.signature → Prop :=
  Relation.ReflTransGen fun state later => ∃ op : Operation cs, op.run state = .ok later

/-- The group's state is the same. -/
structure SameGroup (state later : ClientState cs.signature) : Prop where
  groupContext : later.groupContext = state.groupContext
  ratchetTree : later.ratchetTree = state.ratchetTree
  keySchedule : later.keySchedule = state.keySchedule
  groupActiveState : later.groupActiveState = state.groupActiveState

theorem SameGroup.refl (state : ClientState cs.signature) : SameGroup state state :=
  ⟨rfl, rfl, rfl, rfl⟩

theorem SameGroup.trans {a b c : ClientState cs.signature} (hab : SameGroup a b)
    (hbc : SameGroup b c) : SameGroup a c where
  groupContext := hbc.groupContext.trans hab.groupContext
  ratchetTree := hbc.ratchetTree.trans hab.ratchetTree
  keySchedule := hbc.keySchedule.trans hab.keySchedule
  groupActiveState := hbc.groupActiveState.trans hab.groupActiveState

variable {state later : ClientState cs.signature}

/-! ## Sending -/

theorem sendProposal_sameGroup {publicMessage : Bool} {proposal : Proposal}
    {authenticatedData : Bytes} {coins : MessageCoins} {currentTime : ℤ}
    {sent : SentProposal cs.signature}
    (h : sendProposal cs state publicMessage proposal authenticatedData coins currentTime =
      .ok sent) : state.groupActiveState = .active ∧ SameGroup state sent.newState := by
  obtain ⟨_, hactive, h⟩ := bind_eq_ok.mp h
  obtain ⟨_, -, h⟩ := bind_eq_ok.mp h
  obtain ⟨_, -, h⟩ := bind_eq_ok.mp h
  obtain ⟨_, -, h⟩ := bind_eq_ok.mp h
  refine ⟨checkCanSendHandshakeMessages_eq_ok hactive, ?_⟩
  split at h
  · obtain ⟨publicMessage, -, h⟩ := bind_eq_ok.mp h
    obtain ⟨ref, -, h⟩ := bind_eq_ok.mp h
    rw [← Except.ok.inj h]
    exact ⟨rfl, rfl, rfl, rfl⟩
  · obtain ⟨result, -, h⟩ := bind_eq_ok.mp h
    rw [← Except.ok.inj h]
    exact ⟨rfl, rfl, rfl, rfl⟩

theorem createUpdateProposal_sameGroup {publicMessage : Bool}
    {options : CreateUpdateProposalOptions cs.signature} {coins : UpdateCoins cs} {currentTime : ℤ}
    {result : CreateProposalResult cs.signature}
    (h : createUpdateProposal cs state publicMessage options coins currentTime = .ok result) :
    state.groupActiveState = .active ∧ SameGroup state result.newState := by
  obtain ⟨_, -, h⟩ := bind_eq_ok.mp h
  dsimp only at h
  split at h
  · cases h
  · obtain ⟨resolved, -, h⟩ := bind_eq_ok.mp h
    obtain ⟨hpkePublicKey, -, h⟩ := bind_eq_ok.mp h
    obtain ⟨leafNode, -, h⟩ := bind_eq_ok.mp h
    obtain ⟨sent, hsent, h⟩ := bind_eq_ok.mp h
    obtain ⟨hpkePrivateKey, -, h⟩ := bind_eq_ok.mp h
    obtain ⟨hactive, hsame⟩ := sendProposal_sameGroup hsent
    rw [← Except.ok.inj h]
    exact ⟨hactive, hsame.groupContext, hsame.ratchetTree, hsame.keySchedule,
      hsame.groupActiveState⟩

theorem createApplicationMessage_sameGroup {message authenticatedData : Bytes}
    {coins : MessageCoins} {result : CreateApplicationMessageResult cs.signature}
    (h : createApplicationMessage cs state message authenticatedData coins = .ok result) :
    state.groupActiveState = .active ∧ SameGroup state result.newState := by
  obtain ⟨_, hactive, h⟩ := bind_eq_ok.mp h
  obtain ⟨protectedMessage, -, h⟩ := bind_eq_ok.mp h
  unfold checkCanSendApplicationMessages at hactive
  split at hactive
  · cases hactive
  · rw [← Except.ok.inj h]
    exact ⟨checkCanSendHandshakeMessages_eq_ok hactive, rfl, rfl, rfl, rfl⟩

theorem discardPendingProposal_sameGroup (state : ClientState cs.signature) (ref : Bytes) :
    SameGroup state (discardPendingProposal state ref) := by
  unfold discardPendingProposal
  split
  · exact .refl state
  · exact ⟨rfl, rfl, rfl, rfl⟩

/-- Only an active client sends. -/
theorem Operation.Sends.active {op : Operation cs} (hsends : op.Sends)
    (h : op.run state = .ok later) : state.groupActiveState = .active := by
  cases op with
  | processMessage message pskIndex action currentTime => cases hsends
  | createCommit pskIndex options coins currentTime =>
    obtain ⟨result, hresult, -⟩ := map_eq_ok.mp h
    obtain ⟨p, -, hcreates⟩ := createCommit_parts hresult
    exact hcreates.active
  | createProposal publicMessage proposal authenticatedData coins currentTime =>
    obtain ⟨result, hresult, -⟩ := map_eq_ok.mp h
    obtain ⟨sent, hsent, -⟩ := bind_eq_ok.mp hresult
    exact (sendProposal_sameGroup hsent).1
  | createUpdateProposal publicMessage options coins currentTime =>
    obtain ⟨result, hresult, -⟩ := map_eq_ok.mp h
    exact (createUpdateProposal_sameGroup hresult).1
  | createApplicationMessage message authenticatedData coins =>
    obtain ⟨result, hresult, -⟩ := map_eq_ok.mp h
    exact (createApplicationMessage_sameGroup hresult).1
  | discardPendingProposal ref => cases hsends

/-! ## Removed clients -/

variable {message : MlsHandshakeMessage} {pskIndex : PskIndex} {action : IncomingMessageCallback}
  {currentTime : ℤ} {r : ProcessMessageResult cs.signature}

/-- The first thing a message meets is the check that the client is still a member. -/
theorem processMessage_not_removed
    (h : processMessage cs message state pskIndex action currentTime = .ok r) :
    state.groupActiveState ≠ .removedFromGroup := by
  have hgate : throwIfRemovedFromGroup state = .ok () := by
    cases message with
    | mls_public_message pm =>
      obtain ⟨result, hresult, -⟩ := bind_eq_ok.mp h
      obtain ⟨_, hgate, -⟩ := bind_eq_ok.mp hresult
      exact hgate
    | mls_private_message pm =>
      obtain ⟨_, hgate, -⟩ := bind_eq_ok.mp h
      exact hgate
  intro hremoved
  rw [throwIfRemovedFromGroup, hremoved] at hgate
  cases hgate

theorem Operation.Speaks.cases {op : Operation cs} (h : op.Speaks) :
    op.Sends ∨ ∃ message pskIndex action currentTime,
      op = .processMessage message pskIndex action currentTime := by
  cases op with
  | processMessage message pskIndex action currentTime => exact .inr ⟨_, _, _, _, rfl⟩
  | discardPendingProposal ref => cases h
  | _ => exact .inl trivial

theorem Operation.Speaks.not_removed {op : Operation cs} (hspeaks : op.Speaks)
    (h : op.run state = .ok later) : state.groupActiveState ≠ .removedFromGroup := by
  rcases hspeaks.cases with hsends | ⟨message, pskIndex, action, currentTime, rfl⟩
  · rw [hsends.active h]
    exact GroupActiveState.noConfusion
  · obtain ⟨r, hr, -⟩ := map_eq_ok.mp h
    exact processMessage_not_removed hr

theorem Operation.run_of_not_speaks {op : Operation cs} (hnot : ¬op.Speaks)
    (h : op.run state = .ok later) : SameGroup state later := by
  cases op with
  | discardPendingProposal ref =>
    obtain rfl := Except.ok.inj h
    exact discardPendingProposal_sameGroup state ref
  | _ => exact absurd trivial hnot

/-- A removed client can only drop what it has pending. -/
theorem removed_step {op : Operation cs} (hremoved : state.groupActiveState = .removedFromGroup)
    (h : op.run state = .ok later) : SameGroup state later :=
  op.run_of_not_speaks (fun hspeaks => hspeaks.not_removed h hremoved) h

/-! ## Suspended clients -/

variable {reinit : Reinit}

/-- Of what it is sent, a suspended client reads private application messages of epochs behind
its own. -/
theorem processMessage_suspended (hs : state.groupActiveState = .suspendedPendingReinit reinit)
    (h : processMessage cs message state pskIndex action currentTime = .ok r) :
    IsLate state message := by
  have hgate : ∀ {epoch : ℤ} {contentType : ContentTypeName} {u : Unit},
      throwIfSuspendedPendingReinit state epoch contentType = .ok u →
      contentType = .application ∧ epoch ≠ state.groupContext.epoch := by
    intro epoch contentType u hgate
    simp only [throwIfSuspendedPendingReinit, hs] at hgate
    split_ifs at hgate with hrefused
    rwa [not_or, not_not] at hrefused
  cases message with
  | mls_public_message pm =>
    obtain ⟨result, hresult, -⟩ := bind_eq_ok.mp h
    obtain ⟨_, -, hresult⟩ := bind_eq_ok.mp hresult
    split_ifs at hresult with hgroup hformer
    · obtain ⟨_, -, hresult⟩ := bind_eq_ok.mp hresult
      cases hresult
    · obtain ⟨_, hsuspended, hresult⟩ := bind_eq_ok.mp hresult
      obtain ⟨content, hcontent, -⟩ := bind_eq_ok.mp hresult
      rw [unprotectPublicMessage, (hgate hsuspended).1] at hcontent
      cases hcontent
  | mls_private_message pm =>
    obtain ⟨_, -, h⟩ := bind_eq_ok.mp h
    split_ifs at h with hgroup hfuture hformer
    · obtain ⟨_, -, h⟩ := bind_eq_ok.mp h
      cases h
    · exact hformer
    · obtain ⟨_, hsuspended, -⟩ := bind_eq_ok.mp h
      exact absurd (le_antisymm (not_lt.mp hfuture) (not_lt.mp hformer)) (hgate hsuspended).2

/-- An application message of an earlier epoch the client has kept the keys of. -/
inductive RetainedApplication {sig : Signature} (state : ClientState sig) :
    MlsHandshakeMessage → Prop
  | intro {pm : PrivateMessage} {receiverData : EpochReceiverData}
      (contentType : pm.contentType = .application) (former : pm.epoch < state.groupContext.epoch)
      (retained : state.historicalReceiverData.get pm.epoch = some receiverData) :
      RetainedApplication state (.mls_private_message pm)

/-- The message was decrypted, and the state is the group's as before. -/
theorem suspended_processMessage (hs : state.groupActiveState = .suspendedPendingReinit reinit)
    (h : processMessage cs message state pskIndex action currentTime = .ok r) :
    RetainedApplication state message ∧ SameGroup state r.state ∧
      ∃ content applicationData, r = applicationResult content applicationData r.state := by
  have hlate := processMessage_suspended hs h
  cases processMessage_processed h with
  | late former retained contentType read_eq =>
    exact ⟨⟨contentType, former, retained⟩, ⟨rfl, rfl, rfl, rfl⟩, _, _, rfl⟩
  | application current => exact absurd hlate current.not_lt
  | refused current => exact absurd hlate current
  | proposal unappliedProposals current => exact absurd hlate current
  | removed current => exact absurd hlate current
  | followed current f content commit follows => exact absurd hlate current

theorem suspended_sends {op : Operation cs} (hsends : op.Sends)
    (hs : state.groupActiveState = .suspendedPendingReinit reinit) : op.Refused state := by
  intro later h
  rw [hsends.active h] at hs
  cases hs

theorem suspended_step {op : Operation cs}
    (hs : state.groupActiveState = .suspendedPendingReinit reinit) (h : op.run state = .ok later) :
    SameGroup state later := by
  by_cases hspeaks : op.Speaks
  · rcases hspeaks.cases with hsends | ⟨message, pskIndex, action, currentTime, rfl⟩
    · exact absurd h (suspended_sends hsends hs later)
    · obtain ⟨r, hr, rfl⟩ := map_eq_ok.mp h
      exact (suspended_processMessage hs hr).2.1
  · exact op.run_of_not_speaks hspeaks h

/-! ## Active clients -/

/-- What an accepted commit was read as, and what it led to. -/
theorem processMessage_accepted {newState : ClientState cs.signature} {committer : AuthenticatedSender}
    (h : processMessage cs message state pskIndex action currentTime =
      .ok (.newState newState .accept (some committer))) :
    ∃ content commit wireformat applied, readContent cs state message = .ok content ∧
      content.content.info = .commit commit ∧
      applyProposals cs (afterReading cs state message) commit.proposals
        (getSenderLeafNodeIndex content.content.sender) pskIndex false
        (commit.path.map fun path => path.leafNode.leaf) content.content.sender.senderType
        currentTime = .ok applied ∧
      followCommit cs (afterReading cs state message) content commit wireformat applied =
        .ok newState := by
  generalize hr : ProcessMessageResult.newState newState .accept (some committer) = r at h
  cases processMessage_dispatched h with
  | application processed => cases hr
  | @commit content commit wireformat processed current content_eq commit_eq processed_eq =>
    unfold processCommit at processed_eq
    split at processed_eq
    · cases processed_eq
    · obtain ⟨applied, happlied, hprocessed⟩ := bind_eq_ok.mp processed_eq
      dsimp only at hprocessed
      split at hprocessed
      · obtain rfl := Except.ok.inj hprocessed
        cases hr
      · obtain ⟨followed, hfollowed, hprocessed⟩ := bind_eq_ok.mp hprocessed
        obtain rfl := Except.ok.inj hprocessed
        cases hr
        exact ⟨content, commit, wireformat, applied, content_eq, commit_eq, happlied, hfollowed⟩
  | proposal current handled_eq =>
    unfold handleProposal at handled_eq
    split at handled_eq
    · obtain rfl := Except.ok.inj handled_eq
      cases hr
    · obtain ⟨next, -, hhandled⟩ := bind_eq_ok.mp handled_eq
      obtain rfl := Except.ok.inj hhandled
      cases hr

section
variable {proposals : List ProposalOrRef} {committerLeafIndex : Option ℕ} {sentByClient : Bool}
  {newMemberLeafNode : Option LeafNode} {senderType : SenderTypeName}
  {applied : ApplyProposalsResult} {allProposals : List ProposalWithSender}

/-- A client whose leaf stands in the tree takes itself for removed only if a Remove names it. -/
theorem applyProposals_selfRemoved
    (hown : leafSlots state.ratchetTree state.privatePath.leafIndex ≠ none)
    (hall : resolveProposals state committerLeafIndex senderType proposals = .ok allProposals)
    (h : applyProposals cs state proposals committerLeafIndex pskIndex sentByClient
      newMemberLeafNode senderType currentTime = .ok applied) (hself : applied.selfRemoved = true) :
    ∃ r ∈ (groupProposals allProposals).remove, r.proposal = state.privatePath.leafIndex := by
  obtain ⟨_, hall', -, h⟩ := applyProposals_eq_ok h
  obtain rfl := Except.ok.inj (hall.symm.trans hall')
  obtain ⟨-, h⟩ | ⟨reinit, h⟩ | h := applyGroupedProposals_cases h
  · rw [(applyExternalProposals_result h).1] at hself
    cases hself
  · rw [(applyReinit_result h).1] at hself
    cases hself
  · obtain ⟨tree, addedLeafNodes, _, _, -, htree, rfl⟩ := applyMemberProposals_eq_ok h
    rw [beq_iff_eq, leafToNodeIndex_eq, nodeAt_coord] at hself
    exact applyTreeMutations_blanks htree hown hself

/-- The ReInit that suspends a group is one of the commit's proposals. -/
theorem applyProposals_reinit
    (hall : resolveProposals state committerLeafIndex senderType proposals = .ok allProposals)
    (h : applyProposals cs state proposals committerLeafIndex pskIndex sentByClient
      newMemberLeafNode senderType currentTime = .ok applied)
    (hdata : applied.additionalResult = .reinit reinit) :
    ∃ r ∈ (groupProposals allProposals).reinit, r.proposal = reinit := by
  obtain ⟨_, hall', -, h⟩ := applyProposals_eq_ok h
  obtain rfl := Except.ok.inj (hall.symm.trans hall')
  simp only [applyGroupedProposals] at h
  split_ifs at h with hexternal
  · obtain ⟨-, _, _, _, hexternalData⟩ := applyExternalProposals_eq_ok h
    rw [hexternalData] at hdata
    cases hdata
  · split at h
    · rename_i r rest hreinit
      rw [(applyReinit_eq_ok h).2] at hdata
      exact ⟨r, hreinit ▸ List.mem_cons_self, ApplyProposalsData.reinit.inj hdata⟩
    · obtain ⟨tree, addedLeafNodes, _, _, -, -, rfl⟩ := applyMemberProposals_eq_ok h
      cases hdata

end

theorem nextGroupActiveState_cases {selfRemoved : Bool} {data : ApplyProposalsData}
    (h : nextGroupActiveState selfRemoved data ≠ .active) :
    selfRemoved = true ∧ nextGroupActiveState selfRemoved data = .removedFromGroup ∨
      ∃ reinit, data = .reinit reinit ∧
        nextGroupActiveState selfRemoved data = .suspendedPendingReinit reinit := by
  cases selfRemoved with
  | true => exact .inl ⟨rfl, by cases data <;> rfl⟩
  | false =>
    cases data with
    | reinit reinit => exact .inr ⟨reinit, rfl, rfl⟩
    | memberCommit addedLeafNodes groupContext => exact absurd rfl h
    | externalCommit externalInitSecret newMemberLeafIndex priorCredential => exact absurd rfl h

/-- A ReInit is among the proposals, and the client is suspended for it. -/
def SuspendedFor {sig : Signature} (allProposals : List ProposalWithSender)
    (later : ClientState sig) : Prop :=
  ∃ r ∈ (groupProposals allProposals).reinit,
    later.groupActiveState = .suspendedPendingReinit r.proposal

/-- The ways out of a group: by a commit with a ReInit, created or accepted, and by an
accepted one that removes the client. -/
inductive LeavesActive (state later : ClientState cs.signature) : Operation cs → Prop
  | createdReinit {pskIndex : PskIndex} {options : CreateCommitOptions cs.signature}
      {coins : CommitCoins} {currentTime : ℤ} {commit : Commit}
      {allProposals : List ProposalWithSender}
      (created : createdCommit state pskIndex options coins currentTime = .ok commit)
      (resolved : resolveProposals state (some state.privatePath.leafIndex) .member
        commit.proposals = .ok allProposals)
      (suspended : SuspendedFor allProposals later) :
      LeavesActive state later (.createCommit pskIndex options coins currentTime)
  | acceptedReinit {message : MlsHandshakeMessage} {pskIndex : PskIndex}
      {action : IncomingMessageCallback} {currentTime : ℤ} {committer : AuthenticatedSender}
      {sender : Sender} {commit : Commit} {allProposals : List ProposalWithSender}
      (accepted : processMessage cs message state pskIndex action currentTime =
        .ok (.newState later .accept (some committer)))
      (carried : commitIn state message = .ok (some (sender, commit)))
      (resolved : resolveProposals state (getSenderLeafNodeIndex sender) sender.senderType
        commit.proposals = .ok allProposals)
      (suspended : SuspendedFor allProposals later) :
      LeavesActive state later (.processMessage message pskIndex action currentTime)
  | acceptedRemoval {message : MlsHandshakeMessage} {pskIndex : PskIndex}
      {action : IncomingMessageCallback} {currentTime : ℤ} {committer : AuthenticatedSender}
      {sender : Sender} {commit : Commit} {allProposals : List ProposalWithSender}
      (accepted : processMessage cs message state pskIndex action currentTime =
        .ok (.newState later .accept (some committer)))
      (carried : commitIn state message = .ok (some (sender, commit)))
      (resolved : resolveProposals state (getSenderLeafNodeIndex sender) sender.senderType
        commit.proposals = .ok allProposals)
      (removes : ∃ r ∈ (groupProposals allProposals).remove,
        r.proposal = state.privatePath.leafIndex)
      (removed : later.groupActiveState = .removedFromGroup) :
      LeavesActive state later (.processMessage message pskIndex action currentTime)

/-- A committer cannot remove itself, so only a ReInit takes it out. -/
theorem createCommit_leavesActive {options : CreateCommitOptions cs.signature} {coins : CommitCoins}
    {result : CreateCommitResult cs.signature}
    (hown : leafSlots state.ratchetTree state.privatePath.leafIndex ≠ none)
    (h : createCommit cs state pskIndex options coins currentTime = .ok result)
    (hleaves : result.newState.groupActiveState ≠ .active) :
    LeavesActive state result.newState (.createCommit pskIndex options coins currentTime) := by
  obtain ⟨p, hbundles, hcreates⟩ := createCommit_parts h
  obtain ⟨allProposals, hall, -⟩ := applyProposals_eq_ok hcreates.applied
  have hnext := hbundles.groupActiveState
  rw [hnext] at hleaves
  rcases nextGroupActiveState_cases hleaves with ⟨hself, -⟩ | ⟨reinit, hdata, hsuspended⟩
  · obtain ⟨r, hr, heq⟩ := applyProposals_selfRemoved hown hall hcreates.applied hself
    have hnot := (applyProposals_targets hall hcreates.applied).2 rfl _ rfl
    have hchange : LeafChange.remove r.proposal ∈ proposedChanges (groupProposals allProposals) :=
      List.mem_append_right _ (List.mem_map_of_mem hr)
    exact absurd (heq ▸ List.mem_map_of_mem hchange) hnot
  · obtain ⟨r, hr, rfl⟩ := applyProposals_reinit hall hcreates.applied hdata
    exact .createdReinit (hcreates.createdCommit_eq hbundles) hall
      ⟨r, hr, hnext.trans hsuspended⟩

theorem processMessage_leavesActive (hactive : state.groupActiveState = .active)
    (hown : leafSlots state.ratchetTree state.privatePath.leafIndex ≠ none)
    (h : processMessage cs message state pskIndex action currentTime = .ok r)
    (hleaves : r.state.groupActiveState ≠ .active) :
    LeavesActive state r.state (.processMessage message pskIndex action currentTime) := by
  obtain ⟨newState, committer, rfl⟩ : ∃ newState committer,
      r = .newState newState .accept (some committer) := by
    cases processMessage_processed h with
    | removed current => exact ⟨_, _, rfl⟩
    | followed current f content commit follows => exact ⟨_, _, rfl⟩
    | _ => exact absurd hactive hleaves
  obtain ⟨content, commit, wireformat, applied, hcontent, hcommit, happlied, hfollowed⟩ :=
    processMessage_accepted h
  obtain ⟨allProposals, hall, -⟩ := applyProposals_eq_ok happlied
  have hcarried := commitIn_eq hcontent hcommit
  obtain ⟨-, -, ⟨hself, rfl⟩ | ⟨hself, next, -, rfl⟩⟩ := followCommit_cases hfollowed
  · exact .acceptedRemoval h hcarried hall
      (applyProposals_selfRemoved hown hall happlied hself) rfl
  · rcases nextGroupActiveState_cases hleaves with ⟨hremoved, -⟩ | ⟨reinit, hdata, hsuspended⟩
    · rw [hself] at hremoved
      cases hremoved
    · obtain ⟨r, hr, rfl⟩ := applyProposals_reinit hall happlied hdata
      exact .acceptedReinit h hcarried hall ⟨r, hr, hsuspended⟩

theorem active_step {op : Operation cs} (hactive : state.groupActiveState = .active)
    (hown : leafSlots state.ratchetTree state.privatePath.leafIndex ≠ none)
    (h : op.run state = .ok later) (hleaves : later.groupActiveState ≠ .active) :
    LeavesActive state later op := by
  cases op with
  | processMessage message pskIndex action currentTime =>
    obtain ⟨r, hr, rfl⟩ := map_eq_ok.mp h
    exact processMessage_leavesActive hactive hown hr hleaves
  | createCommit pskIndex options coins currentTime =>
    obtain ⟨result, hresult, rfl⟩ := map_eq_ok.mp h
    exact createCommit_leavesActive hown hresult hleaves
  | createProposal publicMessage proposal authenticatedData coins currentTime =>
    obtain ⟨result, hresult, rfl⟩ := map_eq_ok.mp h
    obtain ⟨sent, hsent, hresult⟩ := bind_eq_ok.mp hresult
    obtain rfl := Except.ok.inj hresult
    exact absurd ((sendProposal_sameGroup hsent).2.groupActiveState.trans hactive) hleaves
  | createUpdateProposal publicMessage options coins currentTime =>
    obtain ⟨result, hresult, rfl⟩ := map_eq_ok.mp h
    exact absurd ((createUpdateProposal_sameGroup hresult).2.groupActiveState.trans hactive) hleaves
  | createApplicationMessage message authenticatedData coins =>
    obtain ⟨result, hresult, rfl⟩ := map_eq_ok.mp h
    exact absurd ((createApplicationMessage_sameGroup hresult).2.groupActiveState.trans hactive)
      hleaves
  | discardPendingProposal ref =>
    obtain rfl := Except.ok.inj h
    exact absurd ((discardPendingProposal_sameGroup state ref).groupActiveState.trans hactive)
      hleaves

/-! ## Runs -/

/-- A kind of state whose every step keeps the group's state is kept with it by every run. -/
theorem RunsTo.sameGroup {P : GroupActiveState → Prop}
    (hstep : ∀ state later : ClientState cs.signature, ∀ op : Operation cs,
      P state.groupActiveState → op.run state = .ok later → SameGroup state later)
    (hrun : RunsTo cs state later) (hstate : P state.groupActiveState) : SameGroup state later := by
  induction hrun with
  | refl => exact .refl state
  | tail hrun step ih =>
    obtain ⟨op, hop⟩ := step
    exact ih.trans (hstep _ _ op (ih.groupActiveState ▸ hstate) hop)

/-- The client is removed, and neither sends nor receives anything. -/
structure StaysRemoved (later : ClientState cs.signature) : Prop where
  groupActiveState : later.groupActiveState = .removedFromGroup
  refused : ∀ op : Operation cs, op.Speaks → op.Refused later

/-- The group is as it was when the ReInit came, nothing is sent to it, and what is received
is mail of an earlier epoch. -/
structure StaysSuspended (state later : ClientState cs.signature) : Prop where
  sameGroup : SameGroup state later
  refused : ∀ op : Operation cs, op.Sends → op.Refused later
  reads : ∀ message pskIndex action currentTime r,
    processMessage cs message later pskIndex action currentTime = .ok r →
    RetainedApplication later message ∧
      ∃ content applicationData, r = applicationResult content applicationData r.state

theorem RunsTo.staysRemoved (hrun : RunsTo cs state later)
    (hremoved : state.groupActiveState = .removedFromGroup) : StaysRemoved later := by
  have hsame := hrun.sameGroup (P := fun kind => kind = .removedFromGroup)
    (fun _ _ _ h hop => removed_step h hop) hremoved
  have hlater := hsame.groupActiveState.trans hremoved
  exact ⟨hlater, fun op hspeaks next hop => hspeaks.not_removed hop hlater⟩

theorem RunsTo.staysSuspended (hrun : RunsTo cs state later)
    (hs : state.groupActiveState = .suspendedPendingReinit reinit) : StaysSuspended state later := by
  have hsame := hrun.sameGroup (P := fun kind => kind = .suspendedPendingReinit reinit)
    (fun _ _ _ h hop => suspended_step h hop) hs
  have hlater := hsame.groupActiveState.trans hs
  refine ⟨hsame, fun op hsends => suspended_sends hsends hlater, fun _ _ _ _ r hr => ?_⟩
  obtain ⟨hretained, -, happlication⟩ := suspended_processMessage hlater hr
  exact ⟨hretained, happlication⟩

end

/-- In every run a removed client stays removed and silent, a suspended one stays as it is and
reads old mail, and an active one whose leaf stands in the tree leaves by a commit. -/
theorem groupActiveState_of_run (cs : CiphersuiteImpl) {state later : ClientState cs.signature}
    (hrun : RunsTo cs state later) :
    (state.groupActiveState = .removedFromGroup → StaysRemoved later) ∧
    (∀ reinit, state.groupActiveState = .suspendedPendingReinit reinit →
      StaysSuspended state later) ∧
    (later.groupActiveState = .active →
      leafSlots later.ratchetTree later.privatePath.leafIndex ≠ none →
      ∀ (op : Operation cs) next, op.run later = .ok next → next.groupActiveState ≠ .active →
        LeavesActive later next op) :=
  ⟨hrun.staysRemoved, fun _ => hrun.staysSuspended,
    fun hactive hown _ _ hop hleaves => active_step hactive hown hop hleaves⟩

/-! ## Two ways out -/

def plainReinit : Reinit where
  groupId := [1]
  version := .mls10
  cipherSuite := plainSuite.name
  extensions := []

/-- A group of three that its first member has suspended, and what a second one sent before. -/
structure Suspension where
  state : ClientState plainSuite.signature
  suspended : ClientState plainSuite.signature
  mail : PrivateMessage

/-- The commit by which the group is suspended. -/
def suspend : Operation plainSuite :=
  .createCommit emptyPskIndex { extraProposals := [.reinit plainReinit] } (plainCoins [1]) 0

def suspension : Except MlsError Suspension := do
  let group ← plainGroupOf 1 [2, 3]
  let member ← joinThree group 2
  let sent ← createApplicationMessage plainSuite member [1] [] ⟨[], [0, 0, 0, 0]⟩
  let suspended ← suspend.run group.newState
  pure { state := group.newState, suspended := suspended, mail := sent.privateMessage }

/-- Receives a message without a key of its own. -/
def receive (message : MlsHandshakeMessage) : Operation plainSuite :=
  .processMessage message emptyPskIndex acceptAll 0

/-- A member commits a ReInit and then reads mail of its last epoch, and one is removed by
another's commit. -/
theorem members_leave :
    (∃ state suspended later : ClientState plainSuite.signature,
      state.groupActiveState = .active ∧ suspend.run state = .ok suspended ∧
      LeavesActive state suspended suspend ∧
      suspended.groupActiveState = .suspendedPendingReinit plainReinit ∧
      (∃ mail, (receive (.mls_private_message mail)).run suspended = .ok later) ∧
      StaysSuspended suspended later) ∧
    ∃ (client removed : ClientState plainSuite.signature) (message : MlsHandshakeMessage),
      client.groupActiveState = .active ∧ (receive message).run client = .ok removed ∧
      LeavesActive client removed (receive message) ∧
      removed.groupActiveState = .removedFromGroup ∧ StaysRemoved removed := by
  constructor
  · have h : (do
        let s ← suspension
        let _ ← (receive (.mls_private_message s.mail)).run s.suspended
        pure (decide (s.state.groupActiveState = .active),
          decide (s.suspended.groupActiveState = .suspendedPendingReinit plainReinit),
          (leafSlots s.state.ratchetTree s.state.privatePath.leafIndex).isSome)) =
        Except.ok (true, true, true) := by decide +kernel
    obtain ⟨s, hs, h⟩ := bind_eq_ok.mp h
    obtain ⟨later, hlater, h⟩ := bind_eq_ok.mp h
    simp only [pure, Except.pure, Except.ok.injEq, Prod.mk.injEq, decide_eq_true_eq] at h
    obtain ⟨hactive, hsuspended, hown⟩ := h
    have hsuspend : suspend.run s.state = .ok s.suspended := by
      obtain ⟨group, -, hs⟩ := bind_eq_ok.mp hs
      obtain ⟨member, -, hs⟩ := bind_eq_ok.mp hs
      obtain ⟨sent, -, hs⟩ := bind_eq_ok.mp hs
      obtain ⟨suspended, hsuspend, hs⟩ := bind_eq_ok.mp hs
      obtain rfl := Except.ok.inj hs
      exact hsuspend
    have hleft := (groupActiveState_of_run plainSuite (.refl : RunsTo plainSuite s.state s.state)).2.2
      hactive (Option.isSome_iff_ne_none.mp hown) suspend s.suspended hsuspend (by simp [hsuspended])
    have hstays := (groupActiveState_of_run plainSuite
      (.single ⟨_, hlater⟩ : RunsTo plainSuite s.suspended later)).2.1 plainReinit hsuspended
    exact ⟨s.state, s.suspended, later, hactive, hsuspend, hleft, hsuspended, ⟨s.mail, hlater⟩, hstays⟩
  · have h : (do
        let r ← removal []
        let removed ← (receive r.message).run r.client
        pure (decide (r.client.groupActiveState = .active),
          decide (removed.groupActiveState = .removedFromGroup),
          (leafSlots r.client.ratchetTree r.client.privatePath.leafIndex).isSome)) =
        Except.ok (true, true, true) := by decide +kernel
    obtain ⟨r, -, h⟩ := bind_eq_ok.mp h
    obtain ⟨removed, hremoved, h⟩ := bind_eq_ok.mp h
    simp only [pure, Except.pure, Except.ok.injEq, Prod.mk.injEq, decide_eq_true_eq] at h
    obtain ⟨hactive, hkind, hown⟩ := h
    have hleft := (groupActiveState_of_run plainSuite
      (.refl : RunsTo plainSuite r.client r.client)).2.2 hactive (Option.isSome_iff_ne_none.mp hown)
      (receive r.message) removed hremoved (by simp [hkind])
    have hstays := (groupActiveState_of_run plainSuite
      (.refl : RunsTo plainSuite removed removed)).1 hkind
    exact ⟨r.client, removed, r.message, hactive, hremoved, hleft, hkind, hstays⟩

/-! ## A client without a leaf -/

/-- A group of three in the state of a client that takes a blank place for its own. -/
def strayClient : Except MlsError (ClientState plainSuite.signature) := do
  let group ← plainGroupOf 1 [2, 3]
  pure { group.newState with
    privatePath := { group.newState.privatePath with leafIndex := 3 } }

/-- It commits a key that all its members share. -/
def strayCommit : Operation plainSuite :=
  .createCommit { findPsk := fun _ => some [] } {
    wireAsPublicMessage := true
    extraProposals := [.psk {
      info := .external [1]
      pskNonce := List.replicate plainSuite.kdf.size 0 }] } (plainCoins []) 0

/-- The commit has no ReInit and no Remove, and the committer takes itself for removed. -/
theorem stray_client_leaves : ∃ (state later : ClientState plainSuite.signature)
    (op : Operation plainSuite), state.groupActiveState = .active ∧ op.run state = .ok later ∧
      later.groupActiveState ≠ .active ∧ ¬LeavesActive state later op := by
  have heval : (strayClient.bind fun state => (strayCommit.run state).map fun later =>
      decide (state.groupActiveState = .active) &&
        decide (later.groupActiveState = .removedFromGroup)) = .ok true := by
    decide +kernel
  obtain ⟨state, -, hlater⟩ := bind_eq_ok.mp heval
  obtain ⟨later, hrun, hkinds⟩ := map_eq_ok.mp hlater
  simp only [Bool.and_eq_true, decide_eq_true_eq] at hkinds
  obtain ⟨hactive, hremoved⟩ := hkinds
  refine ⟨state, later, strayCommit, hactive, hrun, by simp [hremoved], fun hleaves => ?_⟩
  cases hleaves with
  | createdReinit created resolved suspended =>
    obtain ⟨r, -, hsuspended⟩ := suspended
    rw [hremoved] at hsuspended
    cases hsuspended

end WebcryptoMls
