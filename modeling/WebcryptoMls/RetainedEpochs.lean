import WebcryptoMls.GroupEpochs
import WebcryptoMls.RatchetRuns

/-!
# Retained epochs

A member reads late messages with what it retains of the epochs behind it. Beside a run
stands the whole record of those epochs: the state each one ended with and the messages
of it accepted since. What the member retains is the end of that record, without the
handshake ratchets.
-/
namespace WebcryptoMls
open Records

/-! ## Reading without handshake ratchets -/

def SecretTreeNode.withoutHandshake (node : SecretTreeNode) : SecretTreeNode where
  application := node.application
  handshake := {
    secret := []
    generation := node.handshake.generation
    unusedGenerations := .empty }

theorem stripHandshakeRatchets_eq (tree : SecretTree) :
    stripHandshakeRatchets tree = tree.map (Option.map SecretTreeNode.withoutHandshake) := rfl

theorem ratchetsAt_stripHandshakeRatchets (tree : SecretTree) (index : ℤ) :
    ratchetsAt (stripHandshakeRatchets tree) index =
      (ratchetsAt tree index).map SecretTreeNode.withoutHandshake := by
  unfold ratchetsAt
  rw [stripHandshakeRatchets_eq, List.getElem?_map]
  split_ifs
  · rfl
  · cases tree[index.toNat]? <;> rfl

theorem stripHandshakeRatchets_updateArray (tree : SecretTree) (index : ℤ) (node : SecretTreeNode) :
    stripHandshakeRatchets (updateArray tree index (some node)) =
      updateArray (stripHandshakeRatchets tree) index (some node.withoutHandshake) := by
  simp [stripHandshakeRatchets_eq, updateArray, List.map_take, List.map_drop]

section
variable {cs : CiphersuiteImpl} (tree : SecretTree) (config : KeyRetentionConfig)

theorem createRatchetResult_strip (node : SecretTreeNode) (index : ℤ) (ratchet : GenerationSecret)
    (reuseGuard : Bytes) :
    createRatchetResult node.withoutHandshake index ratchet reuseGuard (stripHandshakeRatchets tree)
        .application cs =
      (createRatchetResult node index ratchet reuseGuard tree .application cs).map fun r =>
        { r with newTree := stripHandshakeRatchets r.newTree } := by
  simp only [createRatchetResult, map_bind]
  congr! 6
  simp [Except.map, pure, Except.pure, stripHandshakeRatchets_updateArray, withRatchet,
    SecretTreeNode.withoutHandshake]

/-- An application message is read alike, whether the handshake ratchets are there or not. -/
theorem ratchetToGeneration_strip (senderData : SenderData) :
    ratchetToGeneration (stripHandshakeRatchets tree) senderData .application config cs =
      (ratchetToGeneration tree senderData .application config cs).map fun r =>
        { r with newTree := stripHandshakeRatchets r.newTree } := by
  simp only [ratchetToGeneration, ratchetsAt_stripHandshakeRatchets]
  cases ratchetsAt tree (leafToNodeIndex senderData.leafIndex) with
  | none => rfl
  | some node =>
    have hratchet : ratchetForContentType node.withoutHandshake .application =
      ratchetForContentType node .application := rfl
    simp only [Option.map_some, hratchet]
    split
    · split
      · simp only [map_bind]
        congr! 2
        simp [Except.map, pure, Except.pure, stripHandshakeRatchets_updateArray, withRatchet,
          SecretTreeNode.withoutHandshake]
      · rfl
    · rw [map_bind]
      congr! 2
      exact createRatchetResult_strip tree node _ _ _

theorem unprotectPrivateMessage_strip {senderDataSecret : Bytes} {pm : PrivateMessage}
    {ratchetTree : RatchetTree} {groupContext : GroupContext} (hpm : pm.contentType = .application) :
    unprotectPrivateMessage senderDataSecret pm (stripHandshakeRatchets tree) ratchetTree
        groupContext config cs =
      (unprotectPrivateMessage senderDataSecret pm tree ratchetTree groupContext config cs).map
        fun r => { r with tree := stripHandshakeRatchets r.tree } := by
  unfold unprotectPrivateMessage
  rw [map_bind]
  congr! 2
  split
  · rfl
  · unfold unprotectContent
    rw [hpm, map_bind, ratchetToGeneration_strip]
    congr! 2
    cases ratchetToGeneration tree _ .application config cs with
    | error e => rfl
    | ok ratcheted =>
      simp only [map_ok, ok_bind, map_bind]
      congr! 7
      split
      · rfl
      · simp only [map_bind]
        congr! 4
        split_ifs <;> rfl

end

/-! ## The window -/

/-- The greatest of consecutive integers are the last of them. -/
theorem largest_Ico (max : ℕ) (a b : ℤ) :
    largest max (Finset.Ico a b) = Finset.Ico (Max.max a (b - max)) b := by
  ext k
  have habove : (Finset.Ico a b).filter (k < ·) = Finset.Ico (Max.max a (k + 1)) b := by
    ext m
    simp only [Finset.mem_filter, Finset.mem_Ico]
    omega
  simp only [largest, Finset.mem_filter, Finset.mem_Ico, habove, Int.card_Ico]
  omega

/-- What an epoch leaves behind. -/
def supersededEpoch {s : Signature} (state : ClientState s) : EpochReceiverData where
  secretTree := stripHandshakeRatchets state.secretTree
  ratchetTree := state.ratchetTree
  senderDataSecret := state.keySchedule.senderDataSecret
  groupContext := state.groupContext
  resumptionPsk := state.keySchedule.resumptionPsk

section
variable {s : Signature} {state : ClientState s}

theorem get_addHistoricalReceiverData_eq_some {epoch : ℤ} {data : EpochReceiverData}
    (h : (addHistoricalReceiverData state).get epoch = some data) :
    epoch = state.groupContext.epoch ∧ data = supersededEpoch state ∨
      state.historicalReceiverData.get epoch = some data := by
  have hset : ((state.historicalReceiverData.set state.groupContext.epoch
      (supersededEpoch state)).get epoch) = some data := by
    simp only [addHistoricalReceiverData, removeOldHistoricalReceiverData] at h
    split_ifs at h
    · cases h
    · exact Record.get_of_get_latest h
    · exact h
  rw [Record.get_set] at hset
  split_ifs at hset with hepoch
  · exact .inl ⟨hepoch, (Option.some.inj hset).symm⟩
  · exact .inr hset

/-- The window moves on by the epoch that ends, and is one longer until it is full. -/
theorem keySet_addHistoricalReceiverData {n : ℕ}
    (h : state.historicalReceiverData.keySet = Finset.Ico
      (state.groupContext.epoch -
        min (state.clientConfig.keyRetentionConfig.retainKeysForEpochs.toNat : ℤ) n)
      state.groupContext.epoch) :
    (addHistoricalReceiverData state).keySet = Finset.Ico
      (state.groupContext.epoch + 1 -
        min (state.clientConfig.keyRetentionConfig.retainKeysForEpochs.toNat : ℤ) (n + 1 : ℕ))
      (state.groupContext.epoch + 1) := by
  set epoch := state.groupContext.epoch
  set max := state.clientConfig.keyRetentionConfig.retainKeysForEpochs
  have hnew : (state.historicalReceiverData.set epoch (supersededEpoch state)).keySet =
      Finset.Ico (epoch - min (max.toNat : ℤ) n) (epoch + 1) := by
    rw [Record.keySet_set, h]
    ext k
    simp only [Finset.mem_insert, Finset.mem_Ico]
    omega
  have hsize : ((state.historicalReceiverData.set epoch (supersededEpoch state)).size : ℤ) =
      min (max.toNat : ℤ) n + 1 := by
    rw [← Record.card_keySet, hnew, Int.card_Ico]
    omega
  have hunfold : addHistoricalReceiverData state =
      if max ≤ 0 then .empty
      else if (state.historicalReceiverData.set epoch (supersededEpoch state)).size ≥ max then
        removeOldHistoricalReceiverData
          (state.historicalReceiverData.set epoch (supersededEpoch state)) max
      else state.historicalReceiverData.set epoch (supersededEpoch state) := rfl
  rw [hunfold]
  unfold removeOldHistoricalReceiverData
  split_ifs with hmax hfull
  · rw [Record.keySet_empty, eq_comm, Finset.Ico_eq_empty_iff]
    omega
  · rw [Record.keySet_latest, hnew, largest_Ico]
    congr 1
    omega
  · rw [hnew]
    congr 1
    omega

end

/-! ## Runs -/

/-- An epoch behind a member: the state it ended with and the messages of it accepted
since, in their order. -/
structure FormerEpoch (sig : Signature) where
  last : ClientState sig
  late : List PrivateMessage

def FormerEpoch.receive {sig : Signature} (pm : PrivateMessage) (former : FormerEpoch sig) :
    FormerEpoch sig :=
  if former.last.groupContext.epoch = pm.epoch then { former with late := former.late ++ [pm] }
  else former

/-- The secret tree of an epoch after one more of its messages. -/
def readInEpoch {cs : CiphersuiteImpl} (config : KeyRetentionConfig)
    (state : ClientState cs.signature) (tree : SecretTree) (pm : PrivateMessage) :
    Except MlsError SecretTree := do
  let read ← unprotectPrivateMessage state.keySchedule.senderDataSecret pm tree state.ratchetTree
    state.groupContext config cs
  pure read.tree

/-- What is left of an epoch once its late messages have been read. -/
def FormerEpoch.secretTree {cs : CiphersuiteImpl} (config : KeyRetentionConfig)
    (former : FormerEpoch cs.signature) : Except MlsError SecretTree :=
  former.late.foldlM (readInEpoch config former.last) former.last.secretTree

/-- The runs of a member, with the epochs behind it and the secret tree the current epoch
began with. -/
inductive MemberRun (cs : CiphersuiteImpl) (start : ClientState cs.signature) :
    List (FormerEpoch cs.signature) → SecretTree → ClientState cs.signature → Prop
  | start : MemberRun cs start [] start.secretTree start
  | createCommit {former : List (FormerEpoch cs.signature)} {opening : SecretTree}
      {state : ClientState cs.signature} {pskIndex : PskIndex}
      {options : CreateCommitOptions cs.signature} {coins : CommitCoins} {currentTime : ℤ}
      {result : CreateCommitResult cs.signature} (run : MemberRun cs start former opening state)
      (created : createCommit cs state pskIndex options coins currentTime = .ok result) :
      MemberRun cs start (former ++ [⟨state, []⟩]) result.newState.secretTree result.newState
  | commit {former : List (FormerEpoch cs.signature)} {opening : SecretTree}
      {state newState : ClientState cs.signature} {message : MlsHandshakeMessage}
      {pskIndex : PskIndex} {action : IncomingMessageCallback} {currentTime : ℤ}
      {committer : AuthenticatedSender} (run : MemberRun cs start former opening state)
      (processed : processMessage cs message state pskIndex action currentTime =
        .ok (.newState newState .accept (some committer)))
      (member : newState.groupActiveState ≠ .removedFromGroup) :
      MemberRun cs start (former ++ [⟨afterReading cs state message, []⟩]) newState.secretTree
        newState
  | late {former : List (FormerEpoch cs.signature)} {opening : SecretTree}
      {state : ClientState cs.signature} {pm : PrivateMessage} {pskIndex : PskIndex}
      {action : IncomingMessageCallback} {currentTime : ℤ} {r : ProcessMessageResult cs.signature}
      (run : MemberRun cs start former opening state)
      (processed : processMessage cs (.mls_private_message pm) state pskIndex action currentTime =
        .ok r)
      (late : IsLate state (.mls_private_message pm)) :
      MemberRun cs start (former.map (FormerEpoch.receive pm)) opening r.state
  | other {former : List (FormerEpoch cs.signature)} {opening : SecretTree}
      {state : ClientState cs.signature} {message : MlsHandshakeMessage} {pskIndex : PskIndex}
      {action : IncomingMessageCallback} {currentTime : ℤ} {r : ProcessMessageResult cs.signature}
      (run : MemberRun cs start former opening state)
      (processed : processMessage cs message state pskIndex action currentTime = .ok r)
      (current : ¬IsLate state message)
      (noCommit : ∀ committer, r = .newState r.state .accept (some committer) →
        r.state.groupActiveState = .removedFromGroup) :
      MemberRun cs start former opening r.state

/-- A state no epoch is behind. -/
inductive FreshState (cs : CiphersuiteImpl) : ClientState cs.signature → Prop
  | created {groupId epochSecret : Bytes} {keyPackage : KeyPackage}
      {privateKeyPackage : PrivateKeyPackage cs.signature} {extensions : List Extension}
      {clientConfig : ClientConfig} {state : ClientState cs.signature}
      (created : createGroup cs groupId keyPackage privateKeyPackage extensions clientConfig
        epochSecret = .ok state) : FreshState cs state
  | joined {welcome : Welcome} {keyPackage : KeyPackage}
      {privateKeys : PrivateKeyPackage cs.signature} {pskSearch : PskIndex}
      {options : JoinOptions cs.signature} {currentTime : ℤ} {state : ClientState cs.signature}
      (joined : joinGroup cs welcome keyPackage privateKeys pskSearch options currentTime =
        .ok state) : FreshState cs state
  | joinedExternally {groupInfo : GroupInfo} {keyPackage : KeyPackage}
      {privateKeys : PrivateKeyPackage cs.signature} {resync : Bool} {tree : Option RatchetTree}
      {clientConfig : ClientConfig} {authenticatedData : Bytes} {coins : ExternalCoins}
      {currentTime : ℤ} {joined : ExternalJoin cs.signature}
      (joined_eq : joinGroupExternal cs groupInfo keyPackage privateKeys resync tree clientConfig
        authenticatedData coins currentTime = .ok joined) : FreshState cs joined.newState

theorem FreshState.historicalReceiverData_eq {cs : CiphersuiteImpl}
    {state : ClientState cs.signature} (h : FreshState cs state) :
    state.historicalReceiverData = .empty := by
  cases h with
  | created created =>
    obtain ⟨_, -, h⟩ := bind_eq_ok.mp created
    obtain ⟨_, -, h⟩ := bind_eq_ok.mp h
    obtain ⟨_, -, h⟩ := bind_eq_ok.mp h
    obtain ⟨_, -, h⟩ := bind_eq_ok.mp h
    obtain ⟨_, -, h⟩ := bind_eq_ok.mp h
    rw [← Except.ok.inj h]
  | joined joined =>
    obtain ⟨opened, tree, result, -, -, -, h, rfl⟩ := joinGroup_eq_ok joined
    obtain ⟨_, -, h⟩ := bind_eq_ok.mp h
    obtain ⟨_, -, h⟩ := bind_eq_ok.mp h
    obtain ⟨_, -, h⟩ := bind_eq_ok.mp h
    obtain ⟨_, -, h⟩ := bind_eq_ok.mp h
    split_ifs at h
    obtain ⟨_, -, h⟩ := bind_eq_ok.mp h
    rw [← Except.ok.inj h]
  | joinedExternally joined => exact (joinGroupExternal_context joined).2.2

/-- The secret tree an epoch begins with comes from the epoch's own secrets. -/
def OpensEpoch (cs : CiphersuiteImpl) (state : ClientState cs.signature) (opening : SecretTree) :
    Prop :=
  ∃ initSecret commitSecret pskSecret epochSecrets,
    initializeEpoch initSecret commitSecret state.groupContext pskSecret cs.kdf = .ok epochSecrets ∧
    epochSecrets.keySchedule = state.keySchedule ∧
    createSecretTree (leafWidth state.ratchetTree.length) epochSecrets.encryptionSecret cs.kdf =
      .ok opening

/-- What is retained of a former epoch: what it left behind, its late messages read. -/
def FormerEpoch.Retained {cs : CiphersuiteImpl} (config : KeyRetentionConfig)
    (former : FormerEpoch cs.signature) (data : EpochReceiverData) : Prop :=
  ∃ tree, former.secretTree config = .ok tree ∧
    data = supersededEpoch { former.last with secretTree := tree }

/-- The invariant of a run from a fresh state. -/
structure Retention (cs : CiphersuiteImpl) (start : ClientState cs.signature)
    (former : List (FormerEpoch cs.signature)) (opening : SecretTree)
    (state : ClientState cs.signature) : Prop where
  config : state.clientConfig = start.clientConfig
  epoch : state.groupContext.epoch = start.groupContext.epoch + former.length
  epochs : ∀ (i : ℕ) f, former[i]? = some f → f.last.groupContext.epoch = start.groupContext.epoch + i
  late : ∀ f ∈ former, ∀ pm ∈ f.late,
    pm.contentType = .application ∧ pm.epoch = f.last.groupContext.epoch
  keys : state.historicalReceiverData.keySet = Finset.Ico (state.groupContext.epoch -
    min (state.clientConfig.keyRetentionConfig.retainKeysForEpochs.toNat : ℤ) former.length)
    state.groupContext.epoch
  entries : ∀ epoch data, state.historicalReceiverData.get epoch = some data →
    ∃ f ∈ former, f.last.groupContext.epoch = epoch ∧
      f.Retained state.clientConfig.keyRetentionConfig data
  opened : former ≠ [] → OpensEpoch cs state opening
  read : ∃ messages : List PrivateMessage,
    messages.foldlM (readInEpoch state.clientConfig.keyRetentionConfig state) opening =
      .ok state.secretTree

section
variable {cs : CiphersuiteImpl} {start state newState : ClientState cs.signature}
  {former : List (FormerEpoch cs.signature)} {opening : SecretTree}

theorem Retention.fresh (h : FreshState cs start) : Retention cs start [] start.secretTree start where
  config := rfl
  epoch := by simp
  epochs := by simp
  late := by simp
  keys := by
    rw [h.historicalReceiverData_eq, Record.keySet_empty, eq_comm, Finset.Ico_eq_empty_iff]
    simp
  entries := by simp [h.historicalReceiverData_eq]
  opened := by simp
  read := ⟨[], rfl⟩

/-- An epoch that ends joins the epochs behind. -/
theorem Retention.endEpoch (h : Retention cs start former opening state) {tree : SecretTree}
    (hhistory : newState.historicalReceiverData =
      addHistoricalReceiverData { state with secretTree := tree })
    (hconfig : newState.clientConfig = state.clientConfig)
    (hepoch : newState.groupContext.epoch = state.groupContext.epoch + 1)
    (hopened : OpensEpoch cs newState newState.secretTree) :
    Retention cs start (former ++ [⟨{ state with secretTree := tree }, []⟩]) newState.secretTree
      newState where
  config := hconfig.trans h.config
  epoch := by
    rw [hepoch, h.epoch, List.length_append, List.length_singleton]
    push_cast
    ring
  epochs := by
    intro i f hf
    rw [List.getElem?_append] at hf
    split_ifs at hf with hi
    · exact h.epochs i f hf
    · rw [List.getElem?_singleton] at hf
      split_ifs at hf with hlast
      obtain rfl := Option.some.inj hf
      have := h.epoch
      dsimp only
      omega
  late := by
    simp only [List.mem_append, List.mem_singleton]
    rintro f (hf | rfl)
    · exact h.late f hf
    · simp
  keys := by
    rw [hhistory, hepoch, hconfig, List.length_append, List.length_singleton]
    exact keySet_addHistoricalReceiverData h.keys
  entries := by
    intro epoch data hdata
    rw [hhistory] at hdata
    rw [hconfig]
    obtain ⟨rfl, rfl⟩ | hdata := get_addHistoricalReceiverData_eq_some hdata
    · exact ⟨_, List.mem_append_right _ (List.mem_singleton_self _), rfl, tree, rfl, rfl⟩
    · obtain ⟨f, hf, hretained⟩ := h.entries epoch data hdata
      exact ⟨f, List.mem_append_left _ hf, hretained⟩
  opened := fun _ => hopened
  read := ⟨[], rfl⟩

theorem receive_last (pm : PrivateMessage) (f : FormerEpoch cs.signature) :
    (f.receive pm).last = f.last := by
  unfold FormerEpoch.receive
  split <;> rfl

/-- A late message is read with what is retained of its epoch. -/
theorem FormerEpoch.Retained.receive {config : KeyRetentionConfig} {f : FormerEpoch cs.signature}
    {data : EpochReceiverData} (h : f.Retained config data) {pm : PrivateMessage}
    (hpm : pm.contentType = .application) (hepoch : f.last.groupContext.epoch = pm.epoch)
    {read : UnprotectResult}
    (hread : unprotectPrivateMessage data.senderDataSecret pm data.secretTree data.ratchetTree
      data.groupContext config cs = .ok read) :
    (f.receive pm).Retained config { data with secretTree := read.tree } := by
  obtain ⟨tree, htree, rfl⟩ := h
  dsimp only [supersededEpoch] at hread
  rw [unprotectPrivateMessage_strip _ _ hpm] at hread
  cases hunstripped : unprotectPrivateMessage f.last.keySchedule.senderDataSecret pm tree
    f.last.ratchetTree f.last.groupContext config cs with
  | error e =>
    rw [hunstripped] at hread
    cases hread
  | ok unstripped =>
    rw [hunstripped] at hread
    obtain rfl := Except.ok.inj hread
    refine ⟨unstripped.tree, ?_, ?_⟩
    · unfold FormerEpoch.secretTree at htree
      simp [FormerEpoch.receive, hepoch, FormerEpoch.secretTree, List.foldlM_append, htree,
        readInEpoch, hunstripped, pure, Except.pure]
    · simp [FormerEpoch.receive, hepoch, supersededEpoch]

theorem FormerEpoch.receive_of_ne {f : FormerEpoch cs.signature} {pm : PrivateMessage}
    (h : f.last.groupContext.epoch ≠ pm.epoch) : f.receive pm = f := if_neg h

theorem Retention.receive (h : Retention cs start former opening state) {pm : PrivateMessage}
    {data : EpochReceiverData} {read : UnprotectResult}
    (hpm : pm.contentType = .application)
    (hdata : state.historicalReceiverData.get pm.epoch = some data)
    (hread : unprotectPrivateMessage data.senderDataSecret pm data.secretTree data.ratchetTree
      data.groupContext state.clientConfig.keyRetentionConfig cs = .ok read) :
    Retention cs start (former.map (FormerEpoch.receive pm)) opening { state with
      historicalReceiverData := state.historicalReceiverData.set pm.epoch
        { data with secretTree := read.tree } } where
  config := h.config
  epoch := by simpa using h.epoch
  epochs := by
    intro i f hf
    rw [List.getElem?_map, Option.map_eq_some_iff] at hf
    obtain ⟨f, hf, rfl⟩ := hf
    rw [receive_last]
    exact h.epochs i f hf
  late := by
    simp only [List.forall_mem_map, receive_last]
    intro f hf pm' hpm'
    unfold FormerEpoch.receive at hpm'
    split at hpm'
    · rename_i hepoch
      simp only [List.mem_append, List.mem_singleton] at hpm'
      rcases hpm' with hpm' | rfl
      · exact h.late f hf pm' hpm'
      · exact ⟨hpm, hepoch.symm⟩
    · exact h.late f hf pm' hpm'
  keys := by
    have hmem : pm.epoch ∈ state.historicalReceiverData.keySet := Record.mem_keySet.mpr ⟨data, hdata⟩
    simpa [Finset.insert_eq_of_mem hmem] using h.keys
  entries := by
    intro epoch data' hdata'
    rw [Record.get_set] at hdata'
    split_ifs at hdata' with heq
    · subst heq
      obtain rfl := Option.some.inj hdata'
      obtain ⟨f, hf, hepoch, hretained⟩ := h.entries pm.epoch data hdata
      exact ⟨f.receive pm, List.mem_map_of_mem hf, by rw [receive_last, hepoch],
        hretained.receive hpm hepoch hread⟩
    · obtain ⟨f, hf, hepoch, hretained⟩ := h.entries epoch data' hdata'
      have hne : f.last.groupContext.epoch ≠ pm.epoch := fun he => heq (hepoch.symm.trans he)
      refine ⟨f, List.mem_map.mpr ⟨f, hf, FormerEpoch.receive_of_ne hne⟩, hepoch, hretained⟩
  opened := by simpa [OpensEpoch] using h.opened
  read := h.read

/-- A message of the current epoch moves on the secret tree it is read with. -/
theorem Retention.afterReading (h : Retention cs start former opening state)
    (message : MlsHandshakeMessage) :
    Retention cs start former opening (afterReading cs state message) where
  config := h.config
  epoch := h.epoch
  epochs := h.epochs
  late := h.late
  keys := h.keys
  entries := h.entries
  opened := h.opened
  read := by
    obtain ⟨messages, hmessages⟩ := h.read
    cases message with
    | mls_public_message pm => exact ⟨messages, hmessages⟩
    | mls_private_message pm =>
      cases hread : unprotectPrivateMessage state.keySchedule.senderDataSecret pm state.secretTree
        state.ratchetTree state.groupContext state.clientConfig.keyRetentionConfig cs with
      | error e =>
        refine ⟨messages, ?_⟩
        simp only [WebcryptoMls.afterReading, readSecretTree, hread]
        exact hmessages
      | ok read =>
        have hnext : (messages ++ [pm]).foldlM
            (readInEpoch state.clientConfig.keyRetentionConfig state) opening = .ok read.tree := by
          simp [List.foldlM_append, hmessages, readInEpoch, hread, pure, Except.pure]
        refine ⟨messages ++ [pm], ?_⟩
        simp only [WebcryptoMls.afterReading, readSecretTree, hread]
        exact hnext

/-- Nor does it matter what is pending, or whether the member still belongs to the group. -/
theorem Retention.withPending (h : Retention cs start former opening state)
    {unappliedProposals : UnappliedProposals}
    {pendingUpdateKeys : Option (PendingUpdateKeys cs.signature)}
    {groupActiveState : GroupActiveState} :
    Retention cs start former opening { state with
      unappliedProposals := unappliedProposals
      pendingUpdateKeys := pendingUpdateKeys
      groupActiveState := groupActiveState } where
  config := h.config
  epoch := h.epoch
  epochs := h.epochs
  late := h.late
  keys := h.keys
  entries := h.entries
  opened := h.opened
  read := h.read

theorem MemberRun.retention (hstart : FreshState cs start)
    (h : MemberRun cs start former opening state) : Retention cs start former opening state := by
  induction h with
  | start => exact .fresh hstart
  | createCommit run created ih =>
    have hnext := (StartsEpoch.createCommit created).spec.1
    obtain ⟨p, hp⟩ := createCommit_eq_ok created
    refine ih.endEpoch hp.historicalReceiverData hp.clientConfig hnext
      ⟨_, _, _, _, hp.epochSecrets, hp.keySchedule.symm, ?_⟩
    rw [hp.ratchetTree]
    exact hp.secretTree
  | commit run processed member ih =>
    have hnext := (StartsEpoch.processMessage processed member).spec.1
    cases processMessage_processed processed with
    | removed current => exact absurd rfl member
    | followed current f content commit follows =>
      obtain ⟨-, -, hsecrets, htree⟩ := deriveNextEpoch_eq_ok follows.next
      exact ih.endEpoch rfl rfl hnext ⟨_, _, _, _, hsecrets, rfl, htree⟩
  | late run processed late ih =>
    cases processMessage_processed processed with
    | late former retained contentType read_eq => exact ih.receive contentType retained read_eq
    | application current => exact absurd late (not_lt.mpr current.ge)
    | refused current => exact absurd late current
    | proposal unappliedProposals current => exact absurd late current
    | removed current => exact absurd late current
    | followed current f content commit follows => exact absurd late current
  | other run processed current noCommit ih =>
    cases processMessage_processed processed with
    | late former retained contentType read_eq => exact absurd former current
    | application _ => exact ih.afterReading _
    | refused _ => exact ih.afterReading _
    | proposal unappliedProposals _ => exact (ih.afterReading _).withPending
    | removed _ => exact (ih.afterReading _).withPending
    | followed _ f content commit follows =>
      exact absurd (noCommit _ rfl) (nextGroupActiveState_of_member follows.notRemoved)

/-- Every message that is processed takes a run on. -/
theorem MemberRun.processMessage (h : MemberRun cs start former opening state)
    {message : MlsHandshakeMessage} {pskIndex : PskIndex} {action : IncomingMessageCallback}
    {currentTime : ℤ} {r : ProcessMessageResult cs.signature}
    (hprocessed : processMessage cs message state pskIndex action currentTime = .ok r) :
    ∃ former opening, MemberRun cs start former opening r.state := by
  by_cases hcommit : ∃ committer, r = .newState r.state .accept (some committer) ∧
      r.state.groupActiveState ≠ .removedFromGroup
  · obtain ⟨committer, hr, hmember⟩ := hcommit
    rw [hr] at hprocessed
    exact ⟨_, _, h.commit hprocessed hmember⟩
  · by_cases hlate : IsLate state message
    · cases message with
      | mls_public_message pm => exact absurd hlate not_false
      | mls_private_message pm => exact ⟨_, _, h.late hprocessed hlate⟩
    · refine ⟨_, _, h.other hprocessed hlate fun committer hr => ?_⟩
      by_contra hmember
      exact hcommit ⟨committer, hr, hmember⟩

end

/-! ## The retained window -/

/-- An entry holds what an epoch left, its application ratchets moved on by the late
messages accepted since, and nothing of its handshake ratchets. -/
structure FormerEpoch.LeavesEntry {cs : CiphersuiteImpl} (config : KeyRetentionConfig)
    (former : FormerEpoch cs.signature) (data : EpochReceiverData) : Prop where
  senderDataSecret : data.senderDataSecret = former.last.keySchedule.senderDataSecret
  ratchetTree : data.ratchetTree = former.last.ratchetTree
  groupContext : data.groupContext = former.last.groupContext
  resumptionPsk : data.resumptionPsk = former.last.keySchedule.resumptionPsk
  late : ∀ pm ∈ former.late,
    pm.contentType = .application ∧ pm.epoch = former.last.groupContext.epoch
  application : ∃ tree, former.secretTree config = .ok tree ∧ ∀ index,
    (ratchetsAt data.secretTree index).map SecretTreeNode.application =
      (ratchetsAt tree index).map SecretTreeNode.application
  handshake : ∀ index node, ratchetsAt data.secretTree index = some node →
    node.handshake.secret = [] ∧ node.handshake.unusedGenerations = .empty

theorem FormerEpoch.Retained.leavesEntry {cs : CiphersuiteImpl} {config : KeyRetentionConfig}
    {former : FormerEpoch cs.signature} {data : EpochReceiverData} (h : former.Retained config data)
    (hlate : ∀ pm ∈ former.late,
      pm.contentType = .application ∧ pm.epoch = former.last.groupContext.epoch) :
    former.LeavesEntry config data := by
  obtain ⟨tree, htree, rfl⟩ := h
  exact {
    senderDataSecret := rfl
    ratchetTree := rfl
    groupContext := rfl
    resumptionPsk := rfl
    late := hlate
    application := by
      refine ⟨tree, htree, fun index => ?_⟩
      dsimp only [supersededEpoch]
      rw [ratchetsAt_stripHandshakeRatchets, Option.map_map]
      rfl
    handshake := by
      intro index node hnode
      dsimp only [supersededEpoch] at hnode
      rw [ratchetsAt_stripHandshakeRatchets, Option.map_eq_some_iff] at hnode
      obtain ⟨whole, -, rfl⟩ := hnode
      exact ⟨rfl, rfl⟩ }

/-- The retained epochs are the last ones behind, as many as are configured, each with what
it left; the secret tree is the current epoch's own, and a late message is accepted only as
an application message of a retained epoch. -/
theorem historicalReceiverData_window {cs : CiphersuiteImpl} {start state : ClientState cs.signature}
    {former : List (FormerEpoch cs.signature)} {opening : SecretTree} (hstart : FreshState cs start)
    (hrun : MemberRun cs start former opening state) :
    (state.groupContext.epoch = start.groupContext.epoch + former.length ∧
      ∀ (i : ℕ) f, former[i]? = some f →
        f.last.groupContext.epoch = start.groupContext.epoch + i) ∧
    state.historicalReceiverData.keySet = Finset.Ico (state.groupContext.epoch -
      min (start.clientConfig.keyRetentionConfig.retainKeysForEpochs.toNat : ℤ) former.length)
      state.groupContext.epoch ∧
    (∀ epoch data, state.historicalReceiverData.get epoch = some data →
      ∃ f ∈ former, f.last.groupContext.epoch = epoch ∧
        f.LeavesEntry start.clientConfig.keyRetentionConfig data) ∧
    (former ≠ [] → OpensEpoch cs state opening) ∧
    (∃ messages : List PrivateMessage,
      messages.foldlM (readInEpoch start.clientConfig.keyRetentionConfig state) opening =
        .ok state.secretTree) ∧
    ∀ pm pskIndex action currentTime r, pm.epoch < state.groupContext.epoch →
      processMessage cs (.mls_private_message pm) state pskIndex action currentTime = .ok r →
      pm.contentType = .application ∧ pm.epoch ∈ state.historicalReceiverData.keySet := by
  have h := hrun.retention hstart
  refine ⟨⟨h.epoch, h.epochs⟩, ?_, ?_, h.opened, ?_, ?_⟩
  · rw [← h.config]
    exact h.keys
  · intro epoch data hdata
    obtain ⟨f, hf, hepoch, hretained⟩ := h.entries epoch data hdata
    rw [h.config] at hretained
    exact ⟨f, hf, hepoch, hretained.leavesEntry (h.late f hf)⟩
  · rw [← h.config]
    exact h.read
  · intro pm pskIndex action currentTime r hlate hprocessed
    cases processMessage_processed hprocessed with
    | late former retained contentType read_eq =>
      exact ⟨contentType, Record.mem_keySet.mpr ⟨_, retained⟩⟩
    | application current => exact absurd hlate (not_lt.mpr current.ge)
    | refused current => exact absurd hlate current
    | proposal unappliedProposals current => exact absurd hlate current
    | removed current => exact absurd hlate current
    | followed current f content commit follows => exact absurd hlate current

/-- A client that keeps one epoch. -/
def forgetfulConfig : ClientConfig :=
  { plainConfig with
    keyRetentionConfig := { defaultKeyRetentionConfig with retainKeysForEpochs := 1 } }

/-- A creator that has committed twice retains the last epoch and has let the first one go. -/
theorem historicalReceiverData_window_created :
    ∃ (created state : ClientState plainSuite.signature)
      (former : List (FormerEpoch plainSuite.signature)) (opening : SecretTree),
      FreshState plainSuite created ∧ MemberRun plainSuite created former opening state ∧
      former.length = 2 ∧ state.groupContext.epoch = 2 ∧
      state.historicalReceiverData.keySet = {1} ∧
      (∃ data, state.historicalReceiverData.get 1 = some data ∧
        ∃ f ∈ former, f.last.groupContext.epoch = 1 ∧
          f.LeavesEntry created.clientConfig.keyRetentionConfig data) ∧
      OpensEpoch plainSuite state opening ∧
      (∃ messages : List PrivateMessage,
        messages.foldlM (readInEpoch created.clientConfig.keyRetentionConfig state) opening =
          .ok state.secretTree) ∧
      ∀ pm pskIndex action currentTime r, pm.epoch < 2 →
        processMessage plainSuite (.mls_private_message pm) state pskIndex action currentTime =
          .ok r → pm.contentType = .application ∧ pm.epoch = 1 := by
  have h : (do
      let keyPackage ← plainKeyPackage 1
      let added ← plainKeyPackage 2
      let created ← createGroup plainSuite [] keyPackage (plainPrivateKeys 1) [] forgetfulConfig []
      let first ← createCommit plainSuite created emptyPskIndex { extraProposals := [.add added] }
        (plainCoins []) 0
      let second ← createCommit plainSuite first.newState emptyPskIndex {} (plainCoins [1]) 0
      pure (second.newState.groupContext.epoch,
        created.clientConfig.keyRetentionConfig.retainKeysForEpochs)) = Except.ok (2, 1) := by
    decide +kernel
  obtain ⟨keyPackage, -, h⟩ := bind_eq_ok.mp h
  obtain ⟨added, -, h⟩ := bind_eq_ok.mp h
  obtain ⟨created, hcreated, h⟩ := bind_eq_ok.mp h
  obtain ⟨first, hfirst, h⟩ := bind_eq_ok.mp h
  obtain ⟨second, hsecond, h⟩ := bind_eq_ok.mp h
  obtain ⟨hepoch, hretains⟩ := Prod.mk.inj (Except.ok.inj h)
  have hrun : MemberRun plainSuite created (([] ++ [_]) ++ [_]) _ _ :=
    .createCommit (.createCommit .start hfirst) hsecond
  obtain ⟨-, hkeys, hentries, hopens, hread, hlate⟩ :=
    historicalReceiverData_window (.created hcreated) hrun
  rw [hepoch, hretains] at hkeys
  have hkeys : second.newState.historicalReceiverData.keySet = {1} := hkeys
  obtain ⟨data, hdata⟩ := Record.mem_keySet.mp (hkeys ▸ Finset.mem_singleton_self 1)
  refine ⟨created, second.newState, _, _, .created hcreated, hrun, rfl, hepoch, hkeys,
    ⟨data, hdata, hentries 1 data hdata⟩, hopens (by simp), hread, ?_⟩
  intro pm pskIndex action currentTime r hpast hprocessed
  obtain ⟨hcontent, hmem⟩ := hlate pm pskIndex action currentTime r (hepoch ▸ hpast) hprocessed
  exact ⟨hcontent, Finset.mem_singleton.mp (hkeys ▸ hmem)⟩

end WebcryptoMls
