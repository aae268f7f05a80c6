import WebcryptoMls.Lifecycle

/-!
# Steps within an epoch

A client enters an epoch by a commit, one it creates or one it follows. Every other step
leaves the group's state, its keys and the client's own keys as they are; what changes is
what is pending, and what has been read.
-/
namespace WebcryptoMls

section
variable {cs : CiphersuiteImpl} {state later : ClientState cs.signature}

/-- The epoch is the same, and with it all that a commit alone replaces. -/
structure StaysInEpoch (state later : ClientState cs.signature) : Prop where
  groupContext : later.groupContext = state.groupContext
  ratchetTree : later.ratchetTree = state.ratchetTree
  keySchedule : later.keySchedule = state.keySchedule
  confirmationTag : later.confirmationTag = state.confirmationTag
  privatePath : later.privatePath = state.privatePath
  signaturePrivateKey : later.signaturePrivateKey = state.signaturePrivateKey
  clientConfig : later.clientConfig = state.clientConfig

/-- A step stays in the epoch, or it is a commit. -/
inductive EpochStep (cs : CiphersuiteImpl) (state : ClientState cs.signature) :
    ClientState cs.signature → Prop
  | within {later : ClientState cs.signature} (stays : StaysInEpoch state later) :
      EpochStep cs state later
  | created {pskIndex : PskIndex} {options : CreateCommitOptions cs.signature}
      {coins : CommitCoins} {currentTime : ℤ} {result : CreateCommitResult cs.signature}
      (created : createCommit cs state pskIndex options coins currentTime = .ok result) :
      EpochStep cs state result.newState
  | followed {message : MlsHandshakeMessage} {pskIndex : PskIndex} {currentTime : ℤ}
      (f : FollowedCommit cs) (content : readContent cs state message = .ok f.content)
      (commit : f.content.content.info = .commit f.commit)
      (follows : f.Follows (afterReading cs state message) pskIndex currentTime) :
      EpochStep cs state (f.newState (afterReading cs state message))

theorem sendProposal_staysInEpoch {publicMessage : Bool} {proposal : Proposal}
    {authenticatedData : Bytes} {coins : MessageCoins} {currentTime : ℤ}
    {sent : SentProposal cs.signature}
    (h : sendProposal cs state publicMessage proposal authenticatedData coins currentTime =
      .ok sent) : StaysInEpoch state sent.newState := by
  obtain ⟨_, -, h⟩ := bind_eq_ok.mp h
  obtain ⟨_, -, h⟩ := bind_eq_ok.mp h
  obtain ⟨_, -, h⟩ := bind_eq_ok.mp h
  obtain ⟨_, -, h⟩ := bind_eq_ok.mp h
  split at h
  · obtain ⟨publicMessage, -, h⟩ := bind_eq_ok.mp h
    obtain ⟨ref, -, h⟩ := bind_eq_ok.mp h
    rw [← Except.ok.inj h]
    exact ⟨rfl, rfl, rfl, rfl, rfl, rfl, rfl⟩
  · obtain ⟨result, -, h⟩ := bind_eq_ok.mp h
    rw [← Except.ok.inj h]
    exact ⟨rfl, rfl, rfl, rfl, rfl, rfl, rfl⟩

theorem createUpdateProposal_staysInEpoch {publicMessage : Bool}
    {options : CreateUpdateProposalOptions cs.signature} {coins : UpdateCoins cs} {currentTime : ℤ}
    {result : CreateProposalResult cs.signature}
    (h : createUpdateProposal cs state publicMessage options coins currentTime = .ok result) :
    StaysInEpoch state result.newState := by
  obtain ⟨_, -, h⟩ := bind_eq_ok.mp h
  dsimp only at h
  split at h
  · cases h
  · obtain ⟨resolved, -, h⟩ := bind_eq_ok.mp h
    obtain ⟨hpkePublicKey, -, h⟩ := bind_eq_ok.mp h
    obtain ⟨leafNode, -, h⟩ := bind_eq_ok.mp h
    obtain ⟨sent, hsent, h⟩ := bind_eq_ok.mp h
    obtain ⟨hpkePrivateKey, -, h⟩ := bind_eq_ok.mp h
    have hstays := sendProposal_staysInEpoch hsent
    rw [← Except.ok.inj h]
    exact ⟨hstays.groupContext, hstays.ratchetTree, hstays.keySchedule, hstays.confirmationTag,
      hstays.privatePath, hstays.signaturePrivateKey, hstays.clientConfig⟩

theorem createApplicationMessage_staysInEpoch {message authenticatedData : Bytes}
    {coins : MessageCoins} {result : CreateApplicationMessageResult cs.signature}
    (h : createApplicationMessage cs state message authenticatedData coins = .ok result) :
    StaysInEpoch state result.newState := by
  obtain ⟨_, -, h⟩ := bind_eq_ok.mp h
  obtain ⟨protectedMessage, -, h⟩ := bind_eq_ok.mp h
  rw [← Except.ok.inj h]
  exact ⟨rfl, rfl, rfl, rfl, rfl, rfl, rfl⟩

theorem discardPendingProposal_staysInEpoch (state : ClientState cs.signature) (ref : Bytes) :
    StaysInEpoch state (discardPendingProposal state ref) := by
  unfold discardPendingProposal
  split
  · exact ⟨rfl, rfl, rfl, rfl, rfl, rfl, rfl⟩
  · exact ⟨rfl, rfl, rfl, rfl, rfl, rfl, rfl⟩

variable {message : MlsHandshakeMessage} {pskIndex : PskIndex} {action : IncomingMessageCallback}
  {currentTime : ℤ}

theorem processMessage_epochStep {r : ProcessMessageResult cs.signature}
    (h : processMessage cs message state pskIndex action currentTime = .ok r) :
    EpochStep cs state r.state := by
  cases processMessage_processed h with
  | followed current f content commit follows => exact .followed f content commit follows
  | late former retained contentType read_eq => exact .within ⟨rfl, rfl, rfl, rfl, rfl, rfl, rfl⟩
  | application current => exact .within ⟨rfl, rfl, rfl, rfl, rfl, rfl, rfl⟩
  | refused current => exact .within ⟨rfl, rfl, rfl, rfl, rfl, rfl, rfl⟩
  | proposal unappliedProposals current => exact .within ⟨rfl, rfl, rfl, rfl, rfl, rfl, rfl⟩
  | removed current => exact .within ⟨rfl, rfl, rfl, rfl, rfl, rfl, rfl⟩

theorem Operation.run_epochStep {op : Operation cs} (h : op.run state = .ok later) :
    EpochStep cs state later := by
  cases op with
  | processMessage message pskIndex action currentTime =>
    obtain ⟨r, hr, rfl⟩ := map_eq_ok.mp h
    exact processMessage_epochStep hr
  | createCommit pskIndex options coins currentTime =>
    obtain ⟨result, hresult, rfl⟩ := map_eq_ok.mp h
    exact .created hresult
  | createProposal publicMessage proposal authenticatedData coins currentTime =>
    obtain ⟨result, hresult, rfl⟩ := map_eq_ok.mp h
    obtain ⟨sent, hsent, hresult⟩ := bind_eq_ok.mp hresult
    obtain rfl := Except.ok.inj hresult
    exact .within (sendProposal_staysInEpoch hsent)
  | createUpdateProposal publicMessage options coins currentTime =>
    obtain ⟨result, hresult, rfl⟩ := map_eq_ok.mp h
    exact .within (createUpdateProposal_staysInEpoch hresult)
  | createApplicationMessage message authenticatedData coins =>
    obtain ⟨result, hresult, rfl⟩ := map_eq_ok.mp h
    exact .within (createApplicationMessage_staysInEpoch hresult)
  | discardPendingProposal ref =>
    obtain rfl := Except.ok.inj h
    exact .within (discardPendingProposal_staysInEpoch state ref)

/-- What the commits and the steps between them keep is kept by every run. -/
theorem RunsTo.epochInv {P : ClientState cs.signature → Prop}
    (hstep : ∀ {state later : ClientState cs.signature}, P state → EpochStep cs state later →
      P later) (hrun : RunsTo cs state later) (h : P state) : P later := by
  induction hrun with
  | refl => exact h
  | tail hrun step ih =>
    obtain ⟨op, hop⟩ := step
    exact hstep ih (Operation.run_epochStep hop)

end

end WebcryptoMls
