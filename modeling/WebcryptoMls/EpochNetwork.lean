import WebcryptoMls.EpochMembers
import WebcryptoMls.RatchetRoots

/-!
# The messages of an epoch

The members of an epoch send one another application messages over a network that holds
messages back, loses them, delivers them in any order and delivers them again. Each member also
goes its own way: it sends proposals and commits, follows those of others, and moves on to later
epochs. Which messages it reads depends on nothing but how many it has read of their sender.
-/
namespace WebcryptoMls
open Records InOrder

/-! ## What a window has given -/

namespace Window
variable {retain forward : ℤ} {w : Window} {g : ℕ}

/-- The generation is behind, and no key for it is left. -/
def Gave (w : Window) (g : ℕ) : Prop := g < w.next ∧ g ∉ w.skipped

theorem Gave.refuses (h : w.Gave g) : ¬w.Accepts forward g := by
  rintro (⟨hle, -⟩ | ⟨-, hmem⟩)
  · exact absurd h.1 (not_lt.mpr hle)
  · exact h.2 hmem

theorem Gave.skip (h : w.Gave g) : (w.skip retain).Gave g := by
  refine ⟨Nat.lt_succ_of_lt h.1, fun hmem => ?_⟩
  rcases Finset.mem_insert.mp (largest_subset _ _ hmem) with heq | hold
  · exact h.1.ne heq
  · exact h.2 hold

theorem Gave.iterate_skip (h : w.Gave g) (n : ℕ) : ((Window.skip retain)^[n] w).Gave g := by
  induction n generalizing w with
  | zero => exact h
  | succ n ih =>
    rw [Function.iterate_succ_apply]
    exact ih h.skip

theorem Gave.give (h : w.Gave g) (g' : ℕ) : (w.give retain g').Gave g := by
  unfold Window.give
  split_ifs with hlt
  · exact ⟨h.1, fun hmem => h.2 (Finset.mem_of_mem_erase hmem)⟩
  · exact ⟨by have := h.1; dsimp only; omega, (h.iterate_skip _).2⟩

theorem Bounded.gave_give (h : w.Bounded retain) (g : ℕ) : (w.give retain g).Gave g := by
  unfold Window.give
  split_ifs with hlt
  · exact ⟨hlt, Finset.notMem_erase g w.skipped⟩
  · refine ⟨Nat.lt_succ_self g, fun hmem => ?_⟩
    have hbehind := (h.iterate_skip (g - w.next)).behind g hmem
    rw [next_iterate_skip] at hbehind
    omega

theorem bounded_foldl_give (gens : List ℕ) : (gens.foldl (give retain) start).Bounded retain := by
  induction gens using List.reverseRecOn with
  | nil => exact bounded_start retain
  | append_singleton gens g ih =>
    rw [List.foldl_append]
    exact ih.give g

theorem gave_foldl_give {gens : List ℕ} (h : g ∈ gens) : (gens.foldl (give retain) start).Gave g := by
  induction gens using List.reverseRecOn with
  | nil => cases h
  | append_singleton gens g' ih =>
    rw [List.foldl_append]
    rcases List.mem_append.mp h with hold | hnew
    · exact (ih hold).give g'
    · rw [List.mem_singleton.mp hnew]
      exact (bounded_foldl_give gens).gave_give g'

/-! ## Windows that give nothing up -/

/-- Of the generations behind, the window still has all but those given. -/
structure Complete (gens : List ℕ) (w : Window) : Prop where
  behind : ∀ g ∈ gens, g < w.next
  skipped : w.skipped = (Finset.range w.next).filter (· ∉ gens)

theorem complete_start : Complete [] start := ⟨fun _ h => (List.not_mem_nil h).elim, rfl⟩

theorem Complete.skip {gens : List ℕ} (h : Complete gens w)
    (hretain : w.next + 1 ≤ retain.toNat) : Complete gens (w.skip retain) := by
  have hinsert : insert w.next w.skipped = (Finset.range (w.next + 1)).filter (· ∉ gens) := by
    rw [h.skipped, Finset.range_add_one, Finset.filter_insert,
      if_pos fun hmem => lt_irrefl _ (h.behind _ hmem)]
  refine ⟨fun g hg => Nat.lt_succ_of_lt (h.behind g hg), ?_⟩
  unfold Window.skip
  dsimp only
  rw [hinsert]
  refine largest_of_card_le ((Finset.card_filter_le _ _).trans ?_)
  rwa [Finset.card_range]

theorem Complete.iterate_skip {gens : List ℕ} (h : Complete gens w) {n : ℕ}
    (hretain : w.next + n ≤ retain.toNat) : Complete gens ((Window.skip retain)^[n] w) := by
  induction n generalizing w with
  | zero => exact h
  | succ n ih =>
    rw [Function.iterate_succ_apply]
    exact ih (h.skip (by omega)) (by simp only [Window.skip]; omega)

theorem Complete.give {gens : List ℕ} (h : Complete gens w) (hg : g ≤ retain.toNat) :
    Complete (gens ++ [g]) (w.give retain g) := by
  have hmem : ∀ k, k ∈ gens ++ [g] ↔ k ∈ gens ∨ k = g := fun k => by simp
  unfold Window.give
  split_ifs with hlt
  · refine ⟨fun k hk => ?_, ?_⟩
    · rcases (hmem k).mp hk with hold | rfl
      · exact h.behind k hold
      · exact hlt
    · ext k
      simp only [h.skipped, Finset.mem_erase, Finset.mem_filter, Finset.mem_range, hmem, not_or]
      tauto
  · have hn : ((Window.skip retain)^[g - w.next] w).next = g := by
      rw [next_iterate_skip]
      omega
    have hnext : Complete gens ((Window.skip retain)^[g - w.next] w) := h.iterate_skip (by omega)
    refine ⟨fun k hk => ?_, ?_⟩
    · rcases (hmem k).mp hk with hold | rfl
      · have := h.behind k hold
        dsimp only
        omega
      · exact Nat.lt_succ_self k
    · ext k
      have hbehind := hnext.behind k
      rw [hn] at hbehind
      simp only [hnext.skipped, hn, Finset.mem_filter, Finset.mem_range, hmem, not_or]
      constructor
      · rintro ⟨hk, hnot⟩
        exact ⟨by omega, hnot, by omega⟩
      · rintro ⟨hk, hnot, hne⟩
        exact ⟨by omega, hnot⟩

theorem complete_foldl_give {gens : List ℕ} (h : ∀ g ∈ gens, g ≤ retain.toNat) :
    Complete gens (gens.foldl (Window.give retain) start) := by
  induction gens using List.reverseRecOn with
  | nil => exact complete_start
  | append_singleton gens g ih =>
    rw [List.foldl_append]
    exact (ih fun k hk => h k (List.mem_append_left _ hk)).give (h g (by simp))

/-- As long as nothing is given up or out of reach, what has not been given is accepted. -/
theorem accepts_foldl_give_iff {gens : List ℕ} (h : ∀ k ∈ gens, k ≤ retain.toNat)
    (hforward : (g : ℤ) ≤ forward) :
    (gens.foldl (Window.give retain) start).Accepts forward g ↔ g ∉ gens := by
  have hc := complete_foldl_give h
  constructor
  · exact fun haccepts hmem => (gave_foldl_give hmem).refuses haccepts
  · intro hnot
    by_cases hlt : g < (gens.foldl (Window.give retain) start).next
    · refine .inr ⟨hlt, ?_⟩
      rw [hc.skipped]
      exact Finset.mem_filter.mpr ⟨Finset.mem_range.mpr hlt, hnot⟩
    · exact .inl ⟨not_lt.mp hlt, by omega⟩

end Window

/-! ## The network -/

/-- An application message, and what its sender put into it. The generation counts the messages
its sender sent before it. -/
structure SentMessage where
  sender : ℕ
  generation : ℕ
  message : Bytes
  authenticatedData : Bytes
  privateMessage : PrivateMessage

/-- The members by their leaves, the messages that were sent and those that were read, in order. -/
structure EpochNetwork (cs : CiphersuiteImpl) where
  members : ℕ → ClientState cs.signature
  sent : List SentMessage
  read : List (ℕ × SentMessage)

namespace EpochNetwork
variable {cs : CiphersuiteImpl}

def sentBy (net : EpochNetwork cs) (i : ℕ) : List SentMessage :=
  net.sent.filter fun m => m.sender = i

/-- The generations member `j` has read of those member `i` sent, in the order it read them. -/
def readBy (net : EpochNetwork cs) (j i : ℕ) : List ℕ :=
  (net.read.filter fun entry => entry.1 = j ∧ entry.2.sender = i).map fun entry =>
    entry.2.generation

def retention (net : EpochNetwork cs) (j : ℕ) : KeyRetentionConfig :=
  (net.members j).clientConfig.keyRetentionConfig

/-- The window of member `j` on the messages of member `i`. Its own ratchet has stepped past what it
sent and keeps nothing of it. -/
def window (net : EpochNetwork cs) (j i : ℕ) : Window :=
  if j = i then ⟨(net.sentBy i).length, ∅⟩
  else (net.readBy j i).foldl (Window.give (net.retention j).retainKeysForGenerations) .start

/-- A member sends, a member reads some message that was sent, or a member does something that
does not concern the epoch's messages. What throws is no step. -/
inductive Step (e : SharedEpoch) (group : Set ℕ) (net : EpochNetwork cs) : EpochNetwork cs → Prop
  | send {i : ℕ} {message authenticatedData : Bytes} {coins : MessageCoins}
      {result : CreateApplicationMessageResult cs.signature} (member : i ∈ group)
      (current : (net.members i).groupContext.epoch = e.groupContext.epoch)
      (guard : coins.reuseGuard.length = 4)
      (created : createApplicationMessage cs (net.members i) message authenticatedData coins =
        .ok result) :
      Step e group net { net with
        members := Function.update net.members i result.newState
        sent := net.sent ++ [{
          sender := i
          generation := (net.sentBy i).length
          message := message
          authenticatedData := authenticatedData
          privateMessage := result.privateMessage }] }
  | read {j : ℕ} {m : SentMessage} {pskIndex : PskIndex} {action : IncomingMessageCallback}
      {currentTime : ℤ} {r : ProcessMessageResult cs.signature} (member : j ∈ group)
      (sent : m ∈ net.sent)
      (processed : processMessage cs (.mls_private_message m.privateMessage) (net.members j)
        pskIndex action currentTime = .ok r) :
      Step e group net { net with
        members := Function.update net.members j r.state
        read := net.read ++ [(j, m)] }
  | operate {j : ℕ} {op : Operation cs} {later : ClientState cs.signature} (member : j ∈ group)
      (run : op.run (net.members j) = .ok later)
      (other : ¬SharedEpoch.Concerns e.groupContext.epoch (net.members j) op) :
      Step e group net { net with members := Function.update net.members j later }

end EpochNetwork

/-! ## Sending and reading -/

namespace SharedEpoch
variable {cs : CiphersuiteImpl} {e : SharedEpoch} {group : Set ℕ} {j : ℕ} {w : ℕ → Window}
  {state : ClientState cs.signature}

/-- The message is what its sender protected in the epoch. -/
structure Carries (cs : CiphersuiteImpl) (e : SharedEpoch) (m : SentMessage) : Prop where
  groupId : m.privateMessage.groupId = e.groupContext.groupId
  epoch : m.privateMessage.epoch = e.groupContext.epoch
  contentType : m.privateMessage.contentType = .application
  conveys : ∃ reuseGuard content,
    content.content = memberContent e.groupContext m.sender m.authenticatedData
      (.application m.message) ∧
    Conveys cs e.senderDataSecret e.ratchetTree e.groupContext (e.root m.sender)
      ⟨m.sender, m.generation, reuseGuard⟩ content m.privateMessage

/-- A write to one leaf's ratchet moves that leaf's window alone. -/
theorem windows_update {tree tree' : SecretTree} {node : SecretTreeNode} {next : GenerationSecret}
    {w' : Window} (h : ∀ i ∈ group, RatchetAt cs (e.root i) tree i .application (w i))
    (hnode : ratchetsAt tree (leafToNodeIndex j) = some node)
    (htree : tree' = updateArray tree (leafToNodeIndex j)
      (some (withRatchet node .application next)))
    (hnext : RatchetAt cs (e.root j) tree' j .application w') :
    ∀ i ∈ group, RatchetAt cs (e.root i) tree' i .application (Function.update w j w' i) := by
  intro i hi
  by_cases hij : i = j
  · subst hij
    rw [Function.update_self]
    exact hnext
  · rw [Function.update_of_ne hij, htree]
    exact (h i hi).updateArray hnode fun heq => hij heq.1

theorem Present.createApplicationMessage (hcs : MessageCrypto cs) (h : e.Present group j w state)
    {message authenticatedData : Bytes} {coins : MessageCoins}
    {result : CreateApplicationMessageResult cs.signature} (hj : j ∈ group)
    (hguard : coins.reuseGuard.length = 4)
    (hresult : WebcryptoMls.createApplicationMessage cs state message authenticatedData coins =
      .ok result) :
    Carries cs e ⟨j, (w j).next, message, authenticatedData, result.privateMessage⟩ ∧
      e.Present group j (Function.update w j ⟨(w j).next + 1, (w j).skipped⟩) result.newState := by
  obtain ⟨_, -, hresult⟩ := bind_eq_ok.mp hresult
  obtain ⟨protectedMessage, hprotected, hresult⟩ := bind_eq_ok.mp hresult
  obtain rfl := Except.ok.inj hresult
  obtain ⟨auth, hauth, hprotected⟩ := bind_eq_ok.mp hprotected
  obtain ⟨result, hprotect, hprotected⟩ := bind_eq_ok.mp hprotected
  obtain rfl := Except.ok.inj hprotected
  obtain ⟨leaf, hleaf, hkey⟩ := h.signatureKey
  rw [h.senderDataSecret, h.groupContext, h.leafIndex] at hprotect
  rw [h.groupContext, h.leafIndex] at hauth
  have hauthType : auth.content = .application := by
    obtain ⟨signature, -, hauth⟩ := bind_eq_ok.mp hauth
    rw [← Except.ok.inj hauth]
    rfl
  obtain ⟨hconveys, hnext, node, next, hnode, htree⟩ :=
    protect_conveys hcs hprotect hguard ⟨trivial, by rw [hauthType]; rfl⟩ (h.windows j hj) hleaf
      (verifyFramedContentSignature_of_sign hkey hauth)
  obtain ⟨hgroupId, hepoch, hcontentType⟩ := protect_envelope hprotect
  refine ⟨⟨hgroupId, hepoch, hcontentType, coins.reuseGuard, _, rfl, hconveys⟩, ?_⟩
  exact {
    groupContext := h.groupContext
    ratchetTree := h.ratchetTree
    senderDataSecret := h.senderDataSecret
    leafIndex := h.leafIndex
    signatureKey := h.signatureKey
    windows := windows_update h.windows hnode htree hnext }

/-- A message whose generation the window accepts is read, and its generation is given. -/
theorem Retains.unprotect (hcs : MessageCrypto cs) {data : EpochReceiverData}
    (h : Retains cs e group w data) {m : SentMessage} (hm : Carries cs e m) (hsender : m.sender ∈ group)
    {config : KeyRetentionConfig}
    (haccepts : (w m.sender).Accepts config.maximumForwardRatchetSteps m.generation) :
    ∃ content tree, unprotectPrivateMessage data.senderDataSecret m.privateMessage data.secretTree
        data.ratchetTree data.groupContext config cs = .ok { content := content, tree := tree } ∧
      content.content = memberContent e.groupContext m.sender m.authenticatedData
        (.application m.message) ∧
      ∀ i ∈ group, RatchetAt cs (e.root i) tree i .application (Function.update w m.sender
        ((w m.sender).give config.retainKeysForGenerations m.generation) i) := by
  obtain ⟨reuseGuard, content, hcontent, hconveys⟩ := hm.conveys
  have hat := h.windows m.sender hsender
  have hname : ratchetName m.privateMessage.contentType = .application := by rw [hm.contentType]; rfl
  rw [← hname] at hat
  obtain ⟨tree, hread, hnext, node, next, hnode, htree⟩ := hconveys.unprotect hcs hat haccepts
  rw [hm.contentType] at hnext htree
  rw [h.senderDataSecret, h.ratchetTree, h.groupContext]
  exact ⟨content, tree, hread, hcontent, windows_update h.windows hnode htree hnext⟩

theorem Retains.refused {data : EpochReceiverData} (h : Retains cs e group w data)
    {m : SentMessage} (hm : Carries cs e m) (hsender : m.sender ∈ group) {config : KeyRetentionConfig}
    (hrefuses : ¬(w m.sender).Accepts config.maximumForwardRatchetSteps m.generation) :
    ∃ error, unprotectPrivateMessage data.senderDataSecret m.privateMessage data.secretTree
      data.ratchetTree data.groupContext config cs = .error error := by
  obtain ⟨reuseGuard, content, hcontent, hconveys⟩ := hm.conveys
  have hat := h.windows m.sender hsender
  have hname : ratchetName m.privateMessage.contentType = .application := by rw [hm.contentType]; rfl
  rw [← hname] at hat
  rw [h.senderDataSecret, h.ratchetTree, h.groupContext]
  exact hconveys.refused hat hrefuses

/-- The client is active in the epoch, or has left it without being removed and retains its keys. -/
def Reads (e : SharedEpoch) (state : ClientState cs.signature) : Prop :=
  state.groupContext.epoch = e.groupContext.epoch ∧ state.groupActiveState = .active ∨
    e.groupContext.epoch < state.groupContext.epoch ∧
      state.groupActiveState ≠ .removedFromGroup ∧
      state.historicalReceiverData.get e.groupContext.epoch ≠ none

/-- What a member in the epoch would retain of it, the handshake ratchets included. -/
def currentReceiverData {sig : Signature} (state : ClientState sig) : EpochReceiverData where
  secretTree := state.secretTree
  ratchetTree := state.ratchetTree
  senderDataSecret := state.keySchedule.senderDataSecret
  groupContext := state.groupContext
  resumptionPsk := state.keySchedule.resumptionPsk

theorem Present.current (h : e.Present group j w state) :
    Retains cs e group w (currentReceiverData state) :=
  ⟨h.groupContext, h.ratchetTree, h.senderDataSecret, h.windows⟩

theorem Member.groupId (h : e.Member group j w state) :
    state.groupContext.groupId = e.groupContext.groupId := by
  cases h with
  | present present => rw [present.groupContext]
  | past past => exact past.groupId

section
variable {pm : PrivateMessage} {pskIndex : PskIndex} {action : IncomingMessageCallback}
  {currentTime : ℤ}

theorem processMessage_active (hgroup : pm.groupId = state.groupContext.groupId)
    (hepoch : pm.epoch = state.groupContext.epoch) (hactive : state.groupActiveState = .active) :
    processMessage cs (.mls_private_message pm) state pskIndex action currentTime =
      currentEpochResult cs state pm pskIndex action currentTime := by
  have hself : constantTimeEqual pm.groupId state.groupContext.groupId = true :=
    constantTimeEqual_iff.mpr hgroup
  change privateMessageResult cs state pm pskIndex action currentTime = _
  unfold privateMessageResult throwIfRemovedFromGroup throwIfSuspendedPendingReinit
  rw [hactive, hself, hepoch]
  simp only [Bool.not_true, Bool.false_eq_true, if_false, gt_iff_lt, lt_irrefl]
  rfl

theorem processMessage_former (hgroup : pm.groupId = state.groupContext.groupId)
    (hepoch : pm.epoch < state.groupContext.epoch) (hcontent : pm.contentType = .application)
    (hmember : state.groupActiveState ≠ .removedFromGroup) :
    processMessage cs (.mls_private_message pm) state pskIndex action currentTime =
      formerEpochResult cs state pm := by
  have hself : constantTimeEqual pm.groupId state.groupContext.groupId = true :=
    constantTimeEqual_iff.mpr hgroup
  have hremoved : throwIfRemovedFromGroup state = .ok () := by
    unfold throwIfRemovedFromGroup
    split
    · exact absurd ‹_› hmember
    · rfl
  have hsuspended : throwIfSuspendedPendingReinit state pm.epoch pm.contentType = .ok () := by
    unfold throwIfSuspendedPendingReinit
    split
    · rw [if_neg]
      · rfl
      · rintro (hne | heq)
        · exact hne hcontent
        · exact hepoch.ne heq
    · rfl
  change privateMessageResult cs state pm pskIndex action currentTime = _
  unfold privateMessageResult
  rw [hremoved, ok_bind, hself, hsuspended, ok_bind, if_neg (by simp),
    if_neg (not_lt.mpr hepoch.le), if_pos hepoch]

end

/-- A member that still reads the epoch's messages reads one whose generation its window accepts. -/
theorem Member.reads (hcs : MessageCrypto cs) (h : e.Member group j w state) {m : SentMessage}
    (hm : Carries cs e m) (hsender : m.sender ∈ group) (hreads : e.Reads state)
    (haccepts : (w m.sender).Accepts
      state.clientConfig.keyRetentionConfig.maximumForwardRatchetSteps m.generation)
    (pskIndex : PskIndex) (action : IncomingMessageCallback) (currentTime : ℤ) :
    ∃ later, processMessage cs (.mls_private_message m.privateMessage) state pskIndex action
        currentTime = .ok (.applicationMessage m.message later ⟨.member, some m.sender⟩
          m.authenticatedData) ∧
      e.Member group j (Function.update w m.sender ((w m.sender).give
        state.clientConfig.keyRetentionConfig.retainKeysForGenerations m.generation)) later := by
  have hgroup : m.privateMessage.groupId = state.groupContext.groupId := by
    rw [hm.groupId, h.groupId]
  cases h with
  | present present =>
    have hactive : state.groupActiveState = .active := by
      rcases hreads with ⟨-, hactive⟩ | ⟨hlt, -⟩
      · exact hactive
      · exact absurd hlt (by rw [present.groupContext]; exact lt_irrefl _)
    obtain ⟨content, tree, hread, hcontent, hwindows⟩ :=
      present.current.unprotect hcs hm hsender haccepts
    rw [processMessage_active hgroup (by rw [hm.epoch, present.groupContext]) hactive]
    unfold currentEpochResult
    dsimp only [currentReceiverData] at hread
    rw [hread, ok_bind]
    refine ⟨{ state with secretTree := tree }, ?_, .present ?_⟩
    · simp only [hcontent, memberContent, applicationResult]
      rfl
    · exact ⟨present.groupContext, present.ratchetTree, present.senderDataSecret,
        present.leafIndex, present.signatureKey, hwindows⟩
  | past past =>
    obtain ⟨hmember, hretained⟩ : state.groupActiveState ≠ .removedFromGroup ∧
        state.historicalReceiverData.get e.groupContext.epoch ≠ none := by
      rcases hreads with ⟨heq, -⟩ | ⟨-, hreads⟩
      · exact absurd heq past.epoch.ne'
      · exact hreads
    obtain ⟨data, hdata⟩ := Option.ne_none_iff_exists'.mp hretained
    have hretains := past.retained data hdata
    obtain ⟨content, tree, hread, hcontent, hwindows⟩ := hretains.unprotect hcs hm hsender haccepts
    rw [processMessage_former hgroup (by rw [hm.epoch]; exact past.epoch) hm.contentType hmember]
    unfold formerEpochResult
    rw [hm.epoch, hdata]
    dsimp only
    rw [if_neg (by simp [hm.contentType]), hread, ok_bind]
    refine ⟨{ state with
      historicalReceiverData := state.historicalReceiverData.set e.groupContext.epoch
        { data with secretTree := tree } }, ?_, .past ?_⟩
    · simp only [hcontent, memberContent, applicationResult]
      rfl
    · refine ⟨past.groupId, past.epoch, fun data' hdata' => ?_⟩
      dsimp only at hdata'
      rw [Record.get_set_self] at hdata'
      rw [← Option.some.inj hdata']
      exact ⟨hretains.groupContext, hretains.ratchetTree, hretains.senderDataSecret, hwindows⟩

/-- Any other message it refuses, and it refuses every one once it has lost the epoch. -/
theorem Member.reads_of_ok (h : e.Member group j w state) {m : SentMessage} (hm : Carries cs e m)
    (hsender : m.sender ∈ group) {pskIndex : PskIndex} {action : IncomingMessageCallback}
    {currentTime : ℤ} {r : ProcessMessageResult cs.signature}
    (hr : processMessage cs (.mls_private_message m.privateMessage) state pskIndex action
      currentTime = .ok r) :
    e.Reads state ∧ (w m.sender).Accepts
      state.clientConfig.keyRetentionConfig.maximumForwardRatchetSteps m.generation := by
  have hgroup : m.privateMessage.groupId = state.groupContext.groupId := by
    rw [hm.groupId, h.groupId]
  have hmember := processMessage_not_removed hr
  cases h with
  | present present =>
    have hactive : state.groupActiveState = .active := by
      cases hstate : state.groupActiveState with
      | active => rfl
      | suspendedPendingReinit reinit =>
        have hlate : m.privateMessage.epoch < state.groupContext.epoch :=
          processMessage_suspended hstate hr
        rw [hm.epoch, present.groupContext] at hlate
        exact absurd hlate (lt_irrefl _)
      | removedFromGroup => exact absurd hstate hmember
    refine ⟨.inl ⟨by rw [present.groupContext], hactive⟩, ?_⟩
    by_contra hrefuses
    obtain ⟨error, herror⟩ := present.current.refused hm hsender hrefuses
    rw [processMessage_active hgroup (by rw [hm.epoch, present.groupContext]) hactive] at hr
    unfold currentEpochResult at hr
    dsimp only [currentReceiverData] at herror
    rw [herror] at hr
    cases hr
  | past past =>
    rw [processMessage_former hgroup (by rw [hm.epoch]; exact past.epoch) hm.contentType hmember]
      at hr
    unfold formerEpochResult at hr
    rw [hm.epoch] at hr
    cases hdata : state.historicalReceiverData.get e.groupContext.epoch with
    | none =>
      rw [hdata] at hr
      cases hr
    | some data =>
      refine ⟨.inr ⟨past.epoch, hmember, by simp [hdata]⟩, ?_⟩
      by_contra hrefuses
      obtain ⟨error, herror⟩ := (past.retained data hdata).refused hm hsender hrefuses
      rw [hdata] at hr
      dsimp only at hr
      rw [if_neg (by simp [hm.contentType]), herror] at hr
      cases hr

end SharedEpoch

/-! ## What holds of every run -/

/-- The client enters the epoch at leaf `j`, with the private key of its leaf. -/
structure SharedEpoch.Enters {cs : CiphersuiteImpl} (e : SharedEpoch) (j : ℕ)
    (state : ClientState cs.signature) : Prop where
  groupContext : state.groupContext = e.groupContext
  ratchetTree : state.ratchetTree = e.ratchetTree
  senderDataSecret : state.keySchedule.senderDataSecret = e.senderDataSecret
  secretTree : state.secretTree = e.secretTree
  leafIndex : state.privatePath.leafIndex = j
  signatureKey : ∃ leaf, leafAt e.ratchetTree j = some leaf ∧
    cs.signature.Matches state.signaturePrivateKey leaf.signaturePublicKey

namespace EpochNetwork
variable {cs : CiphersuiteImpl} {e : SharedEpoch} {group : Set ℕ} {net later : EpochNetwork cs}
  {i j : ℕ} {m : SentMessage}

/-- Every member has entered the epoch, and nothing has been sent. -/
structure Starts (e : SharedEpoch) (group : Set ℕ) (net : EpochNetwork cs) : Prop where
  sent : net.sent = []
  read : net.read = []
  width : ∃ d ≤ 30, e.ratchetTree.length = size d
  secretTree : ∃ encryptionSecret,
    createSecretTree (leafWidth e.ratchetTree.length) encryptionSecret cs.kdf = .ok e.secretTree
  members : ∀ j ∈ group, e.Enters j (net.members j)

/-- What every run keeps: the members' ratchets are as their windows say, the messages are what
their senders put into them, and none is read twice. -/
structure Inv (e : SharedEpoch) (group : Set ℕ) (net : EpochNetwork cs) : Prop where
  members : ∀ j ∈ group, e.Member group j (net.window j) (net.members j)
  sent : ∀ m ∈ net.sent, m.sender ∈ group ∧ SharedEpoch.Carries cs e m
  numbered : ∀ i, (net.sentBy i).map SentMessage.generation = List.range (net.sentBy i).length
  read : ∀ entry ∈ net.read, entry.2 ∈ net.sent ∧ entry.2.sender ≠ entry.1
  once : net.read.Nodup

theorem mem_sentBy : m ∈ net.sentBy i ↔ m ∈ net.sent ∧ m.sender = i := by
  simp [sentBy]

theorem window_self (net : EpochNetwork cs) (j : ℕ) :
    net.window j j = ⟨(net.sentBy j).length, ∅⟩ := if_pos rfl

theorem window_of_ne (net : EpochNetwork cs) (h : j ≠ i) : net.window j i =
    (net.readBy j i).foldl (Window.give (net.retention j).retainKeysForGenerations) .start := if_neg h

/-- A window depends on the member's configuration and on what has been sent and read. -/
theorem window_congr (hretention : later.retention j = net.retention j)
    (hsent : later.sentBy i = net.sentBy i) (hread : later.readBy j i = net.readBy j i) :
    later.window j i = net.window j i := by
  unfold window
  rw [hretention, hsent, hread]

theorem Inv.generation_lt (h : Inv e group net) (hm : m ∈ net.sent) :
    m.generation < (net.sentBy m.sender).length := by
  have hmem := List.mem_map_of_mem (f := SentMessage.generation) (mem_sentBy.mpr ⟨hm, rfl⟩)
  rwa [h.numbered, List.mem_range] at hmem

/-- The messages of one sender are told apart by their generations. -/
theorem Inv.eq_of_generation (h : Inv e group net) {m m' : SentMessage} (hm : m ∈ net.sent)
    (hm' : m' ∈ net.sent) (hsender : m.sender = m'.sender) (hgen : m.generation = m'.generation) :
    m = m' := by
  have hnodup : ((net.sentBy m'.sender).map SentMessage.generation).Nodup := by
    rw [h.numbered]
    exact List.nodup_range
  exact List.inj_on_of_nodup_map hnodup (mem_sentBy.mpr ⟨hm, hsender⟩) (mem_sentBy.mpr ⟨hm', rfl⟩)
    hgen

theorem Inv.mem_readBy (h : Inv e group net) (hm : m ∈ net.sent) :
    m.generation ∈ net.readBy j m.sender ↔ (j, m) ∈ net.read := by
  unfold readBy
  simp only [List.mem_map, List.mem_filter, decide_eq_true_eq]
  constructor
  · rintro ⟨⟨j', m'⟩, ⟨hmem, rfl, hsender⟩, hgen⟩
    obtain rfl := h.eq_of_generation (h.read _ hmem).1 hm hsender hgen
    exact hmem
  · exact fun hmem => ⟨(j, m), ⟨hmem, rfl, rfl⟩, rfl⟩

/-- Nobody reads its own messages. -/
theorem Inv.sender_ne (h : Inv e group net) (hm : m ∈ net.sent) {forward : ℤ}
    (haccepts : (net.window j m.sender).Accepts forward m.generation) : m.sender ≠ j := by
  rintro rfl
  rw [window_self] at haccepts
  rcases haccepts with ⟨hle, -⟩ | ⟨-, hmem⟩
  · exact absurd (h.generation_lt hm) (not_lt.mpr hle)
  · exact absurd hmem (Finset.notMem_empty _)

/-! ### The start -/

theorem lt_of_leafAt {tree : RatchetTree} {d i : ℕ} {leaf : LeafNode} (hlen : tree.length = size d)
    (h : leafAt tree i = some leaf) : i < 2 ^ d := by
  have hslot : slot tree 0 i ≠ none := by
    rw [show slot tree 0 i = some (.leaf leaf) from leafAt_eq_some.mp h]
    exact Option.some_ne_none _
  rw [slot_eq_getElem?] at hslot
  by_contra hle
  rw [← InOrder.leaf_lt_size, ← hlen] at hle
  exact hslot (by rw [List.getElem?_eq_none (not_lt.mp hle)]; rfl)

theorem expandWithLabel_length (hcs : MessageCrypto cs) {secret context derived : Bytes}
    {label : String} {length : ℕ}
    (h : expandWithLabel secret label context length cs.kdf = .ok derived) :
    derived.length = length := by
  obtain ⟨lengthBytes, -, h⟩ := bind_eq_ok.mp h
  obtain ⟨info, -, h⟩ := bind_eq_ok.mp h
  exact hcs.length _ _ _ _ h

theorem Starts.ratchetAt (hcs : MessageCrypto cs) (h : Starts e group net) (hj : j ∈ group) :
    RatchetAt cs (e.root j) e.secretTree j .application .start := by
  obtain ⟨d, hd, hlen⟩ := h.width
  obtain ⟨encryptionSecret, htree⟩ := h.secretTree
  rw [hlen, leafWidth_size] at htree
  obtain ⟨leaf, hleaf, -⟩ := (h.members j hj).signatureKey
  obtain ⟨node, hnode, hroot⟩ :=
    (createSecretTree_ownRatchets hd htree).leaf j (lt_of_leafAt hlen hleaf)
  obtain ⟨hsecret, hgen, hunused⟩ := hroot .application
  obtain ⟨leafSecret, -, hsecret⟩ := bind_eq_ok.mp hsecret
  have hfresh : (node.ratchet .application).Fresh cs :=
    ⟨expandWithLabel_length hcs hsecret, hgen, hunused⟩
  refine ⟨node, hnode, ⟨fun _ => ?_, fun g kept hg => ?_⟩, hfresh.tracks⟩
  · rw [hgen, SharedEpoch.root, hnode]
    rfl
  · rw [hunused] at hg
    cases hg

theorem Starts.inv (hcs : MessageCrypto cs) (h : Starts e group net) : Inv e group net where
  members := by
    intro j hj
    have hwindow : ∀ i, net.window j i = .start := by
      intro i
      unfold window sentBy readBy
      rw [h.sent, h.read]
      split_ifs <;> rfl
    have hm := h.members j hj
    refine .present ⟨hm.groupContext, hm.ratchetTree, hm.senderDataSecret, hm.leafIndex,
      hm.signatureKey, fun i hi => ?_⟩
    rw [hwindow, hm.secretTree]
    exact h.ratchetAt hcs hi
  sent := by simp [h.sent]
  numbered := by simp [sentBy, h.sent]
  read := by simp [h.read]
  once := by simp [h.read]

/-! ### Steps -/

section
variable {state : ClientState cs.signature} {sent' : List SentMessage}
  {read' : List (ℕ × SentMessage)}

theorem retention_update {k : ℕ}
    (hconfig : state.clientConfig = (net.members j).clientConfig) :
    retention ⟨Function.update net.members j state, sent', read'⟩ k = net.retention k := by
  unfold retention
  dsimp only
  by_cases hkj : k = j
  · subst hkj
    rw [Function.update_self, hconfig]
  · rw [Function.update_of_ne hkj]

/-- A step of member `j` that changes the windows of nobody else keeps the other members. -/
theorem Inv.members_update (h : Inv e group net) {w : ℕ → Window}
    (hconfig : state.clientConfig = (net.members j).clientConfig)
    (hmember : e.Member group j w state)
    (hself : ∀ i, window ⟨Function.update net.members j state, sent', read'⟩ j i = w i)
    (hothers : ∀ k i, k ≠ j →
      window ⟨Function.update net.members j state, sent', read'⟩ k i = net.window k i) :
    ∀ k ∈ group, e.Member group k
      (window ⟨Function.update net.members j state, sent', read'⟩ k)
      (Function.update net.members j state k) := by
  intro k hk
  by_cases hkj : k = j
  · subst hkj
    rw [Function.update_self, show window _ k = w from funext hself]
    exact hmember
  · rw [Function.update_of_ne hkj, show window _ k = net.window k from funext fun i => hothers k i hkj]
    exact h.members k hk

end

theorem sentBy_append (ms : List (ℕ × SentMessage)) (members : ℕ → ClientState cs.signature)
    (m : SentMessage) : sentBy ⟨members, net.sent ++ [m], ms⟩ i =
      if m.sender = i then net.sentBy i ++ [m] else net.sentBy i := by
  simp only [sentBy, List.filter_append, List.filter_singleton]
  split_ifs with heq
  · simp [heq]
  · simp [heq]

theorem readBy_append (members : ℕ → ClientState cs.signature) (sent : List SentMessage) {k : ℕ} :
    readBy ⟨members, sent, net.read ++ [(j, m)]⟩ k i =
      if j = k ∧ m.sender = i then net.readBy k i ++ [m.generation] else net.readBy k i := by
  simp only [readBy, List.filter_append, List.map_append, List.filter_singleton]
  split_ifs with heq
  · simp [heq.1, heq.2]
  · simp [heq]

theorem Inv.send (hcs : MessageCrypto cs) (h : Inv e group net) {message authenticatedData : Bytes}
    {coins : MessageCoins} {result : CreateApplicationMessageResult cs.signature} (hi : i ∈ group)
    (hcurrent : (net.members i).groupContext.epoch = e.groupContext.epoch)
    (hguard : coins.reuseGuard.length = 4)
    (hcreated : createApplicationMessage cs (net.members i) message authenticatedData coins =
      .ok result) :
    Inv e group { net with
      members := Function.update net.members i result.newState
      sent := net.sent ++ [{
        sender := i
        generation := (net.sentBy i).length
        message := message
        authenticatedData := authenticatedData
        privateMessage := result.privateMessage }] } := by
  have hpresent : e.Present group i (net.window i) (net.members i) := by
    cases h.members i hi with
    | present present => exact present
    | past past => exact absurd hcurrent past.epoch.ne'
  obtain ⟨hcarries, hnext⟩ := hpresent.createApplicationMessage hcs hi hguard hcreated
  rw [window_self] at hcarries hnext
  have hconfig := (createApplicationMessage_staysInEpoch hcreated).clientConfig
  refine ⟨h.members_update hconfig (.present hnext) (fun k => ?_) (fun k l hk => ?_), ?_, ?_, ?_,
    h.once⟩
  · by_cases hki : i = k
    · subst hki
      rw [window_self, Function.update_self, sentBy_append, if_pos rfl, List.length_append]
      rfl
    · rw [Function.update_of_ne (Ne.symm hki)]
      refine window_congr (retention_update hconfig) ?_ rfl
      rw [sentBy_append, if_neg hki]
  · by_cases hkl : k = l
    · subst hkl
      refine window_congr (retention_update hconfig) ?_ rfl
      rw [sentBy_append, if_neg (Ne.symm hk)]
    · rw [window_of_ne _ hkl, window_of_ne _ hkl, retention_update hconfig]
      rfl
  · intro m hm
    rcases List.mem_append.mp hm with hold | hnew
    · exact h.sent m hold
    · rw [List.mem_singleton.mp hnew]
      exact ⟨hi, hcarries⟩
  · intro k
    rw [sentBy_append]
    split_ifs with hk
    · subst hk
      rw [List.map_append, h.numbered, List.length_append, List.length_singleton,
        List.range_succ]
      rfl
    · exact h.numbered k
  · exact fun entry hentry =>
      ⟨List.mem_append_left _ (h.read entry hentry).1, (h.read entry hentry).2⟩

theorem Inv.reads (hcs : MessageCrypto cs) (h : Inv e group net) (hj : j ∈ group)
    (hm : m ∈ net.sent) {pskIndex : PskIndex} {action : IncomingMessageCallback} {currentTime : ℤ}
    {r : ProcessMessageResult cs.signature}
    (hr : processMessage cs (.mls_private_message m.privateMessage) (net.members j) pskIndex action
      currentTime = .ok r) :
    Inv e group { net with
      members := Function.update net.members j r.state
      read := net.read ++ [(j, m)] } := by
  obtain ⟨hsender, hcarries⟩ := h.sent m hm
  obtain ⟨hreads, haccepts⟩ := (h.members j hj).reads_of_ok hcarries hsender hr
  have hne := h.sender_ne hm haccepts
  obtain ⟨later, hlater, hmember⟩ := (h.members j hj).reads hcs hcarries hsender hreads haccepts
    pskIndex action currentTime
  obtain rfl := Except.ok.inj (hlater.symm.trans hr)
  have hrun : (Operation.processMessage (.mls_private_message m.privateMessage) pskIndex action
      currentTime).run (net.members j) = .ok later := map_eq_ok.mpr ⟨_, hr, rfl⟩
  have hconfig := Operation.run_clientConfig hrun
  have hunread : (j, m) ∉ net.read := by
    intro hmem
    rw [window_of_ne net hne.symm] at haccepts
    exact (Window.gave_foldl_give ((h.mem_readBy hm).mpr hmem)).refuses haccepts
  change Inv e group ⟨Function.update net.members j later, net.sent, net.read ++ [(j, m)]⟩
  refine ⟨h.members_update hconfig hmember (fun k => ?_) (fun k l hk => ?_), h.sent, h.numbered,
    ?_, ?_⟩
  · by_cases hk : k = m.sender
    · subst hk
      rw [window_of_ne _ hne.symm, Function.update_self, readBy_append, if_pos ⟨rfl, rfl⟩,
        retention_update hconfig, List.foldl_append, window_of_ne _ hne.symm]
      rfl
    · rw [Function.update_of_ne hk]
      refine window_congr (retention_update hconfig) rfl ?_
      rw [readBy_append, if_neg fun heq => hk heq.2.symm]
  · refine window_congr (retention_update hconfig) rfl ?_
    rw [readBy_append, if_neg fun heq => hk heq.1.symm]
  · intro entry hentry
    rcases List.mem_append.mp hentry with hold | hnew
    · exact h.read entry hold
    · rw [List.mem_singleton.mp hnew]
      exact ⟨hm, hne⟩
  · exact List.nodup_append.mpr ⟨h.once, List.nodup_singleton _, by
      intro entry hentry entry' hentry' heq
      rw [List.mem_singleton.mp hentry'] at heq
      exact hunread (heq ▸ hentry)⟩

theorem Inv.operate (h : Inv e group net) (hj : j ∈ group) {op : Operation cs}
    {state : ClientState cs.signature} (hrun : op.run (net.members j) = .ok state)
    (hother : ¬SharedEpoch.Concerns e.groupContext.epoch (net.members j) op) :
    Inv e group { net with members := Function.update net.members j state } := by
  have hconfig := Operation.run_clientConfig hrun
  refine ⟨h.members_update hconfig ((h.members j hj).operate hrun hother)
    (fun i => window_congr (retention_update hconfig) rfl rfl)
    (fun k i _ => window_congr (retention_update hconfig) rfl rfl), h.sent, h.numbered, h.read,
    h.once⟩

theorem Step.inv (hcs : MessageCrypto cs) (hstep : Step e group net later) (h : Inv e group net) :
    Inv e group later := by
  cases hstep with
  | send member current guard created => exact h.send hcs member current guard created
  | read member sent processed => exact h.reads hcs member sent processed
  | operate member run other => exact h.operate member run other

theorem inv_of_run (hcs : MessageCrypto cs) {start : EpochNetwork cs} (hstart : Starts e group start)
    (hrun : Relation.ReflTransGen (Step e group) start net) : Inv e group net := by
  induction hrun with
  | refl => exact hstart.inv hcs
  | tail hrun step ih => exact step.inv hcs ih

/-! ## What is read -/

/-- After every run a member reads a message of another exactly if it still reads the epoch's
messages and the message's generation is in its window on the sender, and reads what the sender put
into it. -/
theorem messages_read_exactly (hcs : MessageCrypto cs) {start : EpochNetwork cs}
    (hstart : Starts e group start) (hrun : Relation.ReflTransGen (Step e group) start net)
    (hm : m ∈ net.sent) (hj : j ∈ group) (pskIndex : PskIndex) (action : IncomingMessageCallback)
    (currentTime : ℤ) :
    ((∃ r, processMessage cs (.mls_private_message m.privateMessage) (net.members j) pskIndex
        action currentTime = .ok r) ↔
      m.sender ≠ j ∧ e.Reads (net.members j) ∧ (net.window j m.sender).Accepts
        (net.retention j).maximumForwardRatchetSteps m.generation) ∧
    ∀ r, processMessage cs (.mls_private_message m.privateMessage) (net.members j) pskIndex
        action currentTime = .ok r → ∃ later, r =
      .applicationMessage m.message later ⟨.member, some m.sender⟩ m.authenticatedData := by
  have h := inv_of_run hcs hstart hrun
  obtain ⟨hsender, hcarries⟩ := h.sent m hm
  have hmember := h.members j hj
  have hread : ∀ r, processMessage cs (.mls_private_message m.privateMessage) (net.members j)
      pskIndex action currentTime = .ok r →
      e.Reads (net.members j) ∧ (net.window j m.sender).Accepts
        (net.retention j).maximumForwardRatchetSteps m.generation :=
    fun r hr => hmember.reads_of_ok hcarries hsender hr
  refine ⟨⟨?_, ?_⟩, fun r hr => ?_⟩
  · rintro ⟨r, hr⟩
    obtain ⟨hreads, haccepts⟩ := hread r hr
    exact ⟨h.sender_ne hm haccepts, hreads, haccepts⟩
  · rintro ⟨-, hreads, haccepts⟩
    obtain ⟨later, hlater, -⟩ :=
      hmember.reads hcs hcarries hsender hreads haccepts pskIndex action currentTime
    exact ⟨_, hlater⟩
  · obtain ⟨hreads, haccepts⟩ := hread r hr
    obtain ⟨later, hlater, -⟩ :=
      hmember.reads hcs hcarries hsender hreads haccepts pskIndex action currentTime
    exact ⟨later, Except.ok.inj (hr.symm.trans hlater)⟩

/-- After every run no message has been read twice, nor anything been read that was not sent by
another; and where a sender has sent no more than a member may skip and keep, the member that still
reads the epoch's messages can read every message of that sender it has not read, however they are
delivered. -/
theorem nothing_lost_or_read_twice (hcs : MessageCrypto cs) {start : EpochNetwork cs}
    (hstart : Starts e group start) (hrun : Relation.ReflTransGen (Step e group) start net) :
    net.read.Nodup ∧ (∀ entry ∈ net.read, entry.2 ∈ net.sent ∧ entry.2.sender ≠ entry.1) ∧
    ∀ m ∈ net.sent, ∀ j ∈ group, m.sender ≠ j → e.Reads (net.members j) →
      ((net.sentBy m.sender).length : ℤ) ≤ (net.retention j).retainKeysForGenerations + 1 →
      ((net.sentBy m.sender).length : ℤ) ≤ (net.retention j).maximumForwardRatchetSteps + 1 →
      ∀ pskIndex action currentTime,
        ((∃ r, processMessage cs (.mls_private_message m.privateMessage) (net.members j) pskIndex
          action currentTime = .ok r) ↔ (j, m) ∉ net.read) := by
  have h := inv_of_run hcs hstart hrun
  refine ⟨h.once, h.read, fun m hm j hj hne hreads hretain hforward pskIndex action currentTime => ?_⟩
  have hgen := h.generation_lt hm
  have hkept : ∀ k ∈ net.readBy j m.sender,
      k ≤ ((net.retention j).retainKeysForGenerations).toNat := by
    intro k hk
    obtain ⟨entry, hentry, rfl⟩ := List.mem_map.mp hk
    obtain ⟨hentry, hentry'⟩ := List.mem_filter.mp hentry
    have hlt := h.generation_lt (h.read entry hentry).1
    rw [(of_decide_eq_true hentry').2] at hlt
    omega
  obtain ⟨hsender, hcarries⟩ := h.sent m hm
  have haccepts : (net.window j m.sender).Accepts (net.retention j).maximumForwardRatchetSteps
      m.generation ↔ (j, m) ∉ net.read := by
    rw [window_of_ne net hne.symm, Window.accepts_foldl_give_iff hkept (by omega), h.mem_readBy hm]
  rw [← haccepts]
  constructor
  · rintro ⟨r, hr⟩
    exact ((h.members j hj).reads_of_ok hcarries hsender hr).2
  · intro hwindow
    obtain ⟨later, hlater, -⟩ := (h.members j hj).reads hcs hcarries hsender hreads hwindow
      pskIndex action currentTime
    exact ⟨_, hlater⟩

end EpochNetwork

/-! ## Two members -/

/-- The plain suite with a key derivation that takes no empty secret. -/
def guardedSuite : CiphersuiteImpl where
  hash := plainHash
  hpke := plainSuite.hpke
  signature := plainSuite.signature
  kdf := {
    extract := plainSuite.kdf.extract
    expand := fun secret info length =>
      if secret = [] then throw (validationError "expand")
      else pure (List.replicate length (checksum (info ++ secret)))
    size := 1 }
  name := plainSuite.name

theorem messageCrypto_guardedSuite : MessageCrypto guardedSuite where
  ratchets := by
    refine ⟨fun secret info hsecret length _ => ?_, by decide, by decide⟩
    have hne : secret ≠ [] := by
      rintro rfl
      cases hsecret
    exact ⟨List.replicate length (checksum (info ++ secret)), if_neg hne, List.length_replicate⟩
  refuses := fun info length derived hd => nomatch hd
  length := by
    intro secret info length derived h
    change (if secret = [] then _ else _) = _ at h
    split_ifs at h
    obtain rfl := Except.ok.inj h
    exact List.length_replicate
  aead := by
    intro key nonce aad plaintext ciphertext h
    obtain rfl := Except.ok.inj h
    change (if (key ++ nonce).isPrefixOf (key ++ nonce ++ plaintext) then _ else _) = _
    rw [if_pos (by simp)]
    simp
    rfl

/-- The epoch of two members, with a secret tree. -/
def pairEpoch (tree : SecretTree) : SharedEpoch where
  groupContext := {
    version := .mls10
    cipherSuite := .MLS_128_DHKEMX25519_AES128GCM_SHA256_Ed25519
    groupId := []
    epoch := 5
    treeHash := []
    confirmedTranscriptHash := []
    extensions := [] }
  ratchetTree := [some (.leaf (plainLeaf 0)), none, some (.leaf (plainLeaf 1))]
  senderDataSecret := [3]
  secretTree := tree

def pairMember (tree : SecretTree) (j : ℕ) : ClientState guardedSuite.signature where
  groupContext := (pairEpoch tree).groupContext
  keySchedule := ⟨[3], [], [], [], [], [], [], [], []⟩
  secretTree := tree
  ratchetTree := (pairEpoch tree).ratchetTree
  privatePath := ⟨j, .empty⟩
  signaturePrivateKey := ([UInt8.ofNat j] : Bytes)
  unappliedProposals := .empty
  pendingUpdateKeys := none
  confirmationTag := []
  historicalReceiverData := .empty
  groupActiveState := .active
  clientConfig := plainConfig

def pairNetwork (tree : SecretTree) : EpochNetwork guardedSuite where
  members := pairMember tree
  sent := []
  read := []

theorem pairNetwork_starts {tree : SecretTree}
    (htree : createSecretTree (leafWidth 3) [7] guardedSuite.kdf = .ok tree) :
    EpochNetwork.Starts (pairEpoch tree) {0, 1} (pairNetwork tree) where
  sent := rfl
  read := rfl
  width := ⟨1, by decide, rfl⟩
  secretTree := ⟨[7], htree⟩
  members := by
    have hmatches : ∀ key : Bytes, guardedSuite.signature.Matches key key := by
      intro key coins message signature h
      obtain rfl := Except.ok.inj h
      exact beq_self_eq_true _
    rintro j (rfl | rfl)
    · exact ⟨rfl, rfl, rfl, rfl, rfl, plainLeaf 0, rfl, hmatches _⟩
    · exact ⟨rfl, rfl, rfl, rfl, rfl, plainLeaf 1, rfl, hmatches _⟩

/-- The first member says something. -/
theorem pairNetwork_sends : ∃ tree result,
    createSecretTree (leafWidth 3) [7] guardedSuite.kdf = .ok tree ∧
      createApplicationMessage guardedSuite (pairMember tree 0) [72, 105] [] ⟨[], [0, 0, 0, 0]⟩ =
        .ok result := by
  obtain ⟨result, h⟩ := exists_ok_of_toBool (x := do
    let tree ← createSecretTree (leafWidth 3) [7] guardedSuite.kdf
    let result ← createApplicationMessage guardedSuite (pairMember tree 0) [72, 105] []
      ⟨[], [0, 0, 0, 0]⟩
    pure result.privateMessage) (by decide +kernel)
  obtain ⟨tree, htree, h⟩ := bind_eq_ok.mp h
  obtain ⟨result, hresult, -⟩ := bind_eq_ok.mp h
  exact ⟨tree, result, htree, hresult⟩

/-- The network of the two once the first has sent its message. -/
def pairSent (tree : SecretTree) (result : CreateApplicationMessageResult guardedSuite.signature) :
    EpochNetwork guardedSuite where
  members := Function.update (pairMember tree) 0 result.newState
  sent := [⟨0, 0, [72, 105], [], result.privateMessage⟩]
  read := []

/-- The second member reads it. -/
theorem message_read_in_pair : ∃ tree net, ∃ m : SentMessage,
    Relation.ReflTransGen (EpochNetwork.Step (pairEpoch tree) {0, 1}) (pairNetwork tree) net ∧
      m ∈ net.sent ∧ ∃ later, processMessage guardedSuite (.mls_private_message m.privateMessage)
        (net.members 1) emptyPskIndex acceptAll 0 =
          .ok (.applicationMessage [72, 105] later ⟨.member, some 0⟩ []) := by
  obtain ⟨tree, result, htree, hresult⟩ := pairNetwork_sends
  have hsend : EpochNetwork.Step (pairEpoch tree) {0, 1} (pairNetwork tree)
      (pairSent tree result) := .send (.inl rfl) rfl rfl hresult
  have hforward : ((0 : ℕ) : ℤ) ≤
      (0 : ℕ) + plainConfig.keyRetentionConfig.maximumForwardRatchetSteps := by decide
  obtain ⟨hiff, hread⟩ := EpochNetwork.messages_read_exactly messageCrypto_guardedSuite
    (pairNetwork_starts htree) (.single hsend) (List.mem_singleton_self _)
    (show (1 : ℕ) ∈ ({0, 1} : Set ℕ) from .inr rfl) emptyPskIndex acceptAll 0
  obtain ⟨r, hr⟩ := hiff.mpr ⟨zero_ne_one, .inl ⟨rfl, rfl⟩, .inl ⟨le_rfl, hforward⟩⟩
  obtain ⟨later, rfl⟩ := hread r hr
  exact ⟨tree, _, _, .single hsend, List.mem_singleton_self _, later, hr⟩

/-- It can read it once: the message is not lost, and once it has read it, it is refused. -/
theorem message_read_once_in_pair : ∃ tree net, ∃ m : SentMessage,
    Relation.ReflTransGen (EpochNetwork.Step (pairEpoch tree) {0, 1}) (pairNetwork tree) net ∧
      m ∈ net.sent ∧ (1, m) ∈ net.read ∧ ∀ r, processMessage guardedSuite
        (.mls_private_message m.privateMessage) (net.members 1) emptyPskIndex acceptAll 0 ≠ .ok r := by
  obtain ⟨tree, result, htree, hresult⟩ := pairNetwork_sends
  have hsend : EpochNetwork.Step (pairEpoch tree) {0, 1} (pairNetwork tree)
      (pairSent tree result) := .send (.inl rfl) rfl rfl hresult
  have hretain : ((1 : ℕ) : ℤ) ≤
      plainConfig.keyRetentionConfig.retainKeysForGenerations + 1 := by decide
  have hforward : ((1 : ℕ) : ℤ) ≤
      plainConfig.keyRetentionConfig.maximumForwardRatchetSteps + 1 := by decide
  have hgroup : (1 : ℕ) ∈ ({0, 1} : Set ℕ) := .inr rfl
  have hm := List.mem_singleton_self (⟨0, 0, [72, 105], [], result.privateMessage⟩ : SentMessage)
  obtain ⟨-, -, hlossless⟩ := EpochNetwork.nothing_lost_or_read_twice messageCrypto_guardedSuite
    (pairNetwork_starts htree) (.single hsend)
  obtain ⟨r, hr⟩ := (hlossless _ hm 1 hgroup zero_ne_one (.inl ⟨rfl, rfl⟩) hretain hforward
    emptyPskIndex acceptAll 0).mpr List.not_mem_nil
  have hread := EpochNetwork.Step.read (e := pairEpoch tree) hgroup hm hr
  have hrun := Relation.ReflTransGen.tail (.single hsend) hread
  refine ⟨tree, _, _, hrun, hm, List.mem_singleton_self _, fun r' hr' => ?_⟩
  have htwice := EpochNetwork.nothing_lost_or_read_twice messageCrypto_guardedSuite
    (pairNetwork_starts htree) (hrun.tail (.read hgroup hm hr'))
  exact absurd htwice.1 (List.nodup_cons.not.mpr fun h => h.1 (List.mem_singleton_self _))

end WebcryptoMls
