import WebcryptoMls.EpochSteps

/-!
# The epoch counter

An epoch is an unbounded integer in memory and a `uint64` in every encoding, which
keeps its low 64 bits without a check. A commit adds one; the encoded epoch follows as
long as the epoch before it is not the last that fits.
-/
namespace WebcryptoMls
open PrefixCode

/-! ## What decoding makes of a group context -/

def ExtensionType.ofNumber (n : ℤ) : ExtensionType :=
  ((enumNumberToKey [.application_id, .ratchet_tree, .required_capabilities, .external_pub,
    .external_senders] defaultExtensionTypes n).map .default).getD (.number n)

theorem ExtensionType.toNumber_ofNumber (n : ℤ) : extensionTypeToNumber (ofNumber n) = n := by
  unfold ofNumber
  cases h : enumNumberToKey [.application_id, .ratchet_tree, .required_capabilities, .external_pub,
    .external_senders] defaultExtensionTypes n with
  | none => rfl
  | some name =>
    have hname : defaultExtensionTypes name = n := enumNumberToKey_eq_some h
    exact hname

theorem ExtensionType.wellFormed_ofNumber (n : ℤ) : (ofNumber n).WellFormed := by
  unfold ofNumber
  cases h : enumNumberToKey [.application_id, .ratchet_tree, .required_capabilities, .external_pub,
    .external_senders] defaultExtensionTypes n with
  | none =>
    intro name
    rw [enumNumberToKey, List.find?_eq_none] at h
    simpa using h name (by cases name <;> simp)
  | some name => trivial

/-- A code point is read back under its name, an epoch without its high bits. -/
def GroupContext.asDecoded (gc : GroupContext) : GroupContext :=
  { gc with
    cipherSuite := .ofNumber gc.cipherSuite.toNumber
    epoch := gc.epoch % 2 ^ 64
    extensions := gc.extensions.map fun e =>
      { e with extensionType := .ofNumber (extensionTypeToNumber e.extensionType) } }

theorem GroupContext.asDecoded_wellFormed (gc : GroupContext) : gc.asDecoded.WellFormed where
  cipherSuite := ⟨_, rfl⟩
  epoch := ⟨Int.emod_nonneg _ (by norm_num), Int.emod_lt_of_pos _ (by norm_num)⟩
  extensions := by
    simp only [asDecoded, List.forall_mem_map]
    exact fun e _ => ExtensionType.wellFormed_ofNumber _

theorem items_map {α β : Type} (e : Encoder β) (f : α → β) (l : List α) :
    items e (l.map f) = items (fun a => e (f a)) l := by
  simp only [items, List.mapM_map]
  rfl

/-- The encoding does not tell them apart. -/
theorem encodeGroupContext_asDecoded (gc : GroupContext) :
    encodeGroupContext gc.asDecoded = encodeGroupContext gc := by
  have hsuite : encodeCiphersuite gc.asDecoded.cipherSuite = encodeCiphersuite gc.cipherSuite :=
    congrArg encodeUint16 (CiphersuiteName.toNumber_ofNumber _)
  have hepoch : encodeUint64 gc.asDecoded.epoch = encodeUint64 gc.epoch := by
    simp [encodeUint64, GroupContext.asDecoded]
  have hextension (e : Extension) : encodeExtension
      { e with extensionType := .ofNumber (extensionTypeToNumber e.extensionType) } =
        encodeExtension e := by
    simp [encodeExtension, contramapEncoders, contramapEncoder, concat, encodeExtensionType,
      ExtensionType.toNumber_ofNumber]
  have hextensions : encodeVarLenType encodeExtension gc.asDecoded.extensions =
      encodeVarLenType encodeExtension gc.extensions := by
    simp only [encodeVarLenType, GroupContext.asDecoded, items_map, hextension]
  simp only [encodeGroupContext, contramapEncoders, contramapEncoder, concat, List.mapM_cons,
    hsuite, hepoch, hextensions]
  rfl

theorem decodeGroupContext_encoded {gc : GroupContext} {encoded : Bytes}
    (h : encodeGroupContext gc = .ok encoded) :
    decodeGroupContext encoded 0 = .ok (some (gc.asDecoded, encoded.length)) := by
  rw [← encodeGroupContext_asDecoded] at h
  simpa using recovers_groupContext gc.asDecoded_wellFormed [] encoded [] h

/-! ## Epochs in encodings -/

/-- The epoch comes back from the encoded context. -/
def EpochSurvives (gc : GroupContext) : Prop :=
  ∃ encoded decoded, encodeGroupContext gc = .ok encoded ∧
    decodeGroupContext encoded 0 = .ok (some (decoded, encoded.length)) ∧ decoded.epoch = gc.epoch

/-- The number a context's epoch is in every encoding. -/
def EncodedEpoch (gc : GroupContext) (n : ℤ) : Prop :=
  ∃ encoded, encodeUint64 gc.epoch = .ok encoded ∧ decodeUint64 encoded 0 = .ok (some (n, 8))

def EncodedEpochIncreases (gc next : GroupContext) : Prop :=
  ∃ n n', EncodedEpoch gc n ∧ EncodedEpoch next n' ∧ n < n'

theorem emod_eq_self_iff {n : ℤ} : n % 2 ^ 64 = n ↔ IsUint64 n := by
  unfold IsUint64
  omega

theorem epochSurvives_iff {gc : GroupContext} {encoded : Bytes}
    (h : encodeGroupContext gc = .ok encoded) : EpochSurvives gc ↔ IsUint64 gc.epoch := by
  have hdecoded := decodeGroupContext_encoded h
  rw [← emod_eq_self_iff]
  constructor
  · rintro ⟨encoded', decoded, h', hdecoded', hepoch⟩
    obtain rfl := Except.ok.inj (h.symm.trans h')
    obtain ⟨rfl, -⟩ := Prod.mk.inj (Option.some.inj (Except.ok.inj (hdecoded.symm.trans hdecoded')))
    exact hepoch
  · exact fun hepoch => ⟨encoded, gc.asDecoded, h, hdecoded, hepoch⟩

theorem encodedEpoch_iff {gc : GroupContext} {n : ℤ} :
    EncodedEpoch gc n ↔ n = gc.epoch % 2 ^ 64 := by
  have hmod : IsUint64 (gc.epoch % 2 ^ 64) := gc.asDecoded_wellFormed.epoch
  have hsame : encodeUint64 (gc.epoch % 2 ^ 64) = encodeUint64 gc.epoch := by simp [encodeUint64]
  obtain ⟨encoded, hencoded⟩ : ∃ encoded, encodeUint64 gc.epoch = .ok encoded := ⟨_, rfl⟩
  have hlen : encoded.length = 8 := by
    rw [← Except.ok.inj hencoded, length_bigEndian]
  have hdecoded := recovers_uint64 hmod.1 hmod.2 [] encoded [] (hsame.trans hencoded)
  rw [List.nil_append, List.append_nil, List.length_nil, hlen] at hdecoded
  simp [EncodedEpoch, hencoded, hdecoded, eq_comm]

theorem encodedEpochIncreases_iff {gc next : GroupContext} :
    EncodedEpochIncreases gc next ↔ gc.epoch % 2 ^ 64 < next.epoch % 2 ^ 64 := by
  simp [EncodedEpochIncreases, encodedEpoch_iff]

/-! ## Steps -/

/-- The context was encoded for the secrets of its epoch. -/
theorem initializeEpoch_encodes {initSecret commitSecret pskSecret : Bytes} {gc : GroupContext}
    {kdf : Kdf} {epochSecrets : EpochSecrets}
    (h : initializeEpoch initSecret commitSecret gc pskSecret kdf = .ok epochSecrets) :
    ∃ encoded, encodeGroupContext gc = .ok encoded := by
  obtain ⟨joinerSecret, hjoiner, -⟩ := bind_eq_ok.mp h
  obtain ⟨extracted, -, hjoiner⟩ := bind_eq_ok.mp hjoiner
  obtain ⟨encoded, hencoded, -⟩ := bind_eq_ok.mp hjoiner
  exact ⟨encoded, hencoded⟩

/-- The state is the first of a new epoch. -/
inductive StartsEpoch (cs : CiphersuiteImpl) (state : ClientState cs.signature) :
    ClientState cs.signature → Prop
  | createCommit {pskIndex : PskIndex} {options : CreateCommitOptions cs.signature}
      {coins : CommitCoins} {currentTime : ℤ} {result : CreateCommitResult cs.signature}
      (created : createCommit cs state pskIndex options coins currentTime = .ok result) :
      StartsEpoch cs state result.newState
  | processMessage {message : MlsHandshakeMessage} {pskIndex : PskIndex}
      {action : IncomingMessageCallback} {currentTime : ℤ} {newState : ClientState cs.signature}
      {committer : AuthenticatedSender}
      (processed : processMessage cs message state pskIndex action currentTime =
        .ok (.newState newState .accept (some committer)))
      (member : newState.groupActiveState ≠ .removedFromGroup) : StartsEpoch cs state newState

/-- A message that is no commit, or one that is refused or removes the member. -/
inductive KeepsEpoch (cs : CiphersuiteImpl) (state : ClientState cs.signature) :
    ClientState cs.signature → Prop
  | processMessage {message : MlsHandshakeMessage} {pskIndex : PskIndex}
      {action : IncomingMessageCallback} {currentTime : ℤ} {r : ProcessMessageResult cs.signature}
      (processed : processMessage cs message state pskIndex action currentTime = .ok r)
      (noCommit : ∀ committer, r = .newState r.state .accept (some committer) →
        r.state.groupActiveState = .removedFromGroup) : KeepsEpoch cs state r.state

theorem nextGroupActiveState_of_member {selfRemoved : Bool} {data : ApplyProposalsData}
    (h : selfRemoved = false) : nextGroupActiveState selfRemoved data ≠ .removedFromGroup := by
  cases data <;> simp [nextGroupActiveState, h]

/-- The context a commit's proposals leave is still of the state's epoch. -/
theorem applyProposals_epoch {cs : CiphersuiteImpl} {s : Signature} {state : ClientState s}
    {proposals : List ProposalOrRef} {committerLeafIndex : Option ℕ} {pskSearch : PskIndex}
    {sentByClient : Bool} {newMemberLeafNode : Option LeafNode} {senderType : SenderTypeName}
    {currentTime : ℤ} {result : ApplyProposalsResult}
    (h : applyProposals cs state proposals committerLeafIndex pskSearch sentByClient
      newMemberLeafNode senderType currentTime = .ok result) :
    (groupContextWithExtensions state.groupContext result.additionalResult).epoch =
      state.groupContext.epoch := by
  obtain ⟨allProposals, -, -, h⟩ := applyProposals_eq_ok h
  obtain ⟨-, h⟩ | ⟨reinit, h⟩ | h := applyGroupedProposals_cases h
  · obtain ⟨-, _, _, _, hdata⟩ := applyExternalProposals_eq_ok h
    rw [hdata]
    rfl
  · rw [(applyReinit_eq_ok h).2]
    rfl
  · obtain ⟨tree, addedLeafNodes, _, _, -, -, rfl⟩ := applyMemberProposals_eq_ok h
    simp only [groupContextWithExtensions, groupContextAfterExtensions]
    split <;> rfl

theorem nextEpochContext_epoch {gc next : GroupContext} {wireformat : WireformatName}
    {content : FramedContent} {signature updatedTreeHash confirmationTag : Bytes} {h : Hash}
    (hnext : nextEpochContext gc wireformat content signature updatedTreeHash confirmationTag h =
      .ok next) : next.epoch = gc.epoch + 1 := by
  obtain ⟨_, rfl⟩ := nextEpochContext_eq_ok hnext
  rfl

/-- A new epoch is the next one, and its context was encoded. -/
theorem StartsEpoch.spec {cs : CiphersuiteImpl} {state newState : ClientState cs.signature}
    (h : StartsEpoch cs state newState) :
    newState.groupContext.epoch = state.groupContext.epoch + 1 ∧
      ∃ encoded, encodeGroupContext newState.groupContext = .ok encoded := by
  cases h with
  | createCommit created =>
    obtain ⟨p, hp⟩ := createCommit_eq_ok created
    rw [nextEpochContext_epoch hp.groupContext, applyProposals_epoch hp.applied]
    exact ⟨rfl, initializeEpoch_encodes hp.epochSecrets⟩
  | processMessage processed member =>
    cases processMessage_processed processed with
    | removed current => exact absurd rfl member
    | followed current f content commit follows =>
      obtain ⟨-, hcontext, hsecrets, -⟩ := deriveNextEpoch_eq_ok follows.next
      have hepoch := nextEpochContext_epoch hcontext
      rw [applyProposals_epoch follows.applied] at hepoch
      exact ⟨hepoch, initializeEpoch_encodes hsecrets⟩

theorem KeepsEpoch.groupContext_eq {cs : CiphersuiteImpl} {state newState : ClientState cs.signature}
    (h : KeepsEpoch cs state newState) : newState.groupContext = state.groupContext := by
  cases h with
  | processMessage processed noCommit =>
    cases processMessage_processed processed with
    | followed current f content commit follows =>
      exact absurd (noCommit _ rfl) (nextGroupActiveState_of_member follows.notRemoved)
    | _ => rfl

theorem KeepsEpoch.ratchetTree_eq {cs : CiphersuiteImpl} {state newState : ClientState cs.signature}
    (h : KeepsEpoch cs state newState) : newState.ratchetTree = state.ratchetTree := by
  cases h with
  | processMessage processed noCommit =>
    cases processMessage_processed processed with
    | followed current f content commit follows =>
      exact absurd (noCommit _ rfl) (nextGroupActiveState_of_member follows.notRemoved)
    | _ => rfl

/-! ## Runs -/

/-- A step that starts no epoch past the last that fits a `uint64`. -/
inductive BoundedStep (cs : CiphersuiteImpl) (state newState : ClientState cs.signature) : Prop
  | starts (starts : StartsEpoch cs state newState)
      (bounded : state.groupContext.epoch < 2 ^ 64 - 1)
  | keeps (keeps : KeepsEpoch cs state newState)

theorem BoundedStep.isUint64 {cs : CiphersuiteImpl} {state newState : ClientState cs.signature}
    (h : BoundedStep cs state newState) (hepoch : IsUint64 state.groupContext.epoch) :
    IsUint64 newState.groupContext.epoch := by
  unfold IsUint64 at hepoch ⊢
  cases h with
  | starts starts bounded =>
    have := starts.spec.1
    omega
  | keeps keeps => rwa [keeps.groupContext_eq]

theorem isUint64_of_boundedRun {cs : CiphersuiteImpl} {start state : ClientState cs.signature}
    (hstart : IsUint64 start.groupContext.epoch)
    (hrun : Relation.ReflTransGen (BoundedStep cs) start state) :
    IsUint64 state.groupContext.epoch := by
  induction hrun with
  | refl => exact hstart
  | tail _ hstep ih => exact hstep.isUint64 ih

/-- The rest of the state an external join returns. -/
theorem joinGroupExternal_context {cs : CiphersuiteImpl} {groupInfo : GroupInfo}
    {keyPackage : KeyPackage} {privateKeys : PrivateKeyPackage cs.signature} {resync : Bool}
    {tree : Option RatchetTree} {clientConfig : ClientConfig} {authenticatedData : Bytes}
    {coins : ExternalCoins} {currentTime : ℤ} {joined : ExternalJoin cs.signature}
    (h : joinGroupExternal cs groupInfo keyPackage privateKeys resync tree clientConfig
      authenticatedData coins currentTime = .ok joined) :
    joined.newState.groupContext.epoch = groupInfo.groupContext.epoch + 1 ∧
      (∃ encoded, encodeGroupContext joined.newState.groupContext = .ok encoded) ∧
      joined.newState.historicalReceiverData = .empty := by
  obtain ⟨externalPub, -, h⟩ := bind_eq_ok.mp h
  obtain ⟨exported, -, h⟩ := bind_eq_ok.mp h
  obtain ⟨ratchetTree, -, h⟩ := bind_eq_ok.mp h
  obtain ⟨former, -, h⟩ := bind_eq_ok.mp h
  obtain ⟨updatedTree, -, h⟩ := bind_eq_ok.mp h
  obtain ⟨⟨treeWithNewLeaf, newLeafNodeIndex⟩, -, h⟩ := bind_eq_ok.mp h
  obtain ⟨newLeafIndex, -, h⟩ := bind_eq_ok.mp h
  obtain ⟨path, -, h⟩ := bind_eq_ok.mp h
  obtain ⟨pathKeys, -, h⟩ := bind_eq_ok.mp h
  obtain ⟨exportedLeafKey, -, h⟩ := bind_eq_ok.mp h
  obtain ⟨commitSecret, -, h⟩ := bind_eq_ok.mp h
  obtain ⟨signed, -, h⟩ := bind_eq_ok.mp h
  obtain ⟨groupContext, hcontext, h⟩ := bind_eq_ok.mp h
  obtain ⟨epochSecrets, hsecrets, h⟩ := bind_eq_ok.mp h
  obtain ⟨secretTree, -, h⟩ := bind_eq_ok.mp h
  obtain ⟨msg, -, h⟩ := bind_eq_ok.mp h
  obtain rfl := Except.ok.inj h
  exact ⟨nextEpochContext_epoch hcontext, initializeEpoch_encodes hsecrets, rfl⟩

theorem survives_succ_iff {gc next : GroupContext} (hepoch : IsUint64 gc.epoch)
    (hnext : next.epoch = gc.epoch + 1) (hencoded : ∃ encoded, encodeGroupContext next = .ok encoded) :
    (EpochSurvives next ↔ gc.epoch < 2 ^ 64 - 1) ∧
      (EncodedEpochIncreases gc next ↔ gc.epoch < 2 ^ 64 - 1) := by
  obtain ⟨encoded, hencoded⟩ := hencoded
  rw [epochSurvives_iff hencoded, encodedEpochIncreases_iff, hnext]
  unfold IsUint64 at hepoch ⊢
  omega

/-- In a run no commit of which is made on the last epoch that fits a `uint64`, an epoch
survives its encoding and the encoded epochs increase; a commit on that last epoch breaks
both. -/
theorem epochs_survive_iff (cs : CiphersuiteImpl) :
    (∀ start state : ClientState cs.signature, IsUint64 start.groupContext.epoch →
      Relation.ReflTransGen (BoundedStep cs) start state →
      (∀ newState, StartsEpoch cs state newState →
        (EpochSurvives newState.groupContext ↔ state.groupContext.epoch < 2 ^ 64 - 1) ∧
        (EncodedEpochIncreases state.groupContext newState.groupContext ↔
          state.groupContext.epoch < 2 ^ 64 - 1)) ∧
      (∀ newState, KeepsEpoch cs state newState →
        newState.groupContext = state.groupContext)) ∧
    (∀ groupInfo keyPackage privateKeys resync tree clientConfig authenticatedData coins currentTime
      joined, IsUint64 groupInfo.groupContext.epoch →
      joinGroupExternal cs groupInfo keyPackage privateKeys resync tree clientConfig
        authenticatedData coins currentTime = .ok joined →
      (EpochSurvives joined.newState.groupContext ↔ groupInfo.groupContext.epoch < 2 ^ 64 - 1) ∧
      (EncodedEpochIncreases groupInfo.groupContext joined.newState.groupContext ↔
        groupInfo.groupContext.epoch < 2 ^ 64 - 1)) := by
  constructor
  · intro start state hstart hrun
    refine ⟨fun newState hstarts => ?_, fun newState hkeeps => hkeeps.groupContext_eq⟩
    obtain ⟨hnext, hencoded⟩ := hstarts.spec
    exact survives_succ_iff (isUint64_of_boundedRun hstart hrun) hnext hencoded
  · intro groupInfo keyPackage privateKeys resync tree clientConfig authenticatedData coins
      currentTime joined hepoch h
    obtain ⟨hnext, hencoded, -⟩ := joinGroupExternal_context h
    exact survives_succ_iff hepoch hnext hencoded

/-- The second commit of a group, and an external join after it. -/
theorem epochs_survive_iff_second :
    (∃ start state next : ClientState plainSuite.signature, IsUint64 start.groupContext.epoch ∧
      Relation.ReflTransGen (BoundedStep plainSuite) start state ∧
      StartsEpoch plainSuite state next ∧ EpochSurvives next.groupContext ∧
      EncodedEpochIncreases state.groupContext next.groupContext) ∧
    ∃ groupInfo tree joined, plainExternalJoin 4 groupInfo tree = .ok joined ∧
      EpochSurvives joined.newState.groupContext ∧
      EncodedEpochIncreases groupInfo.groupContext joined.newState.groupContext := by
  have h : (do
      let keyPackage ← plainKeyPackage 1
      let added ← plainKeyPackage 2
      let start ← createGroup plainSuite [] keyPackage (plainPrivateKeys 1) [] plainConfig []
      let first ← createCommit plainSuite start emptyPskIndex { extraProposals := [.add added] }
        (plainCoins []) 0
      let second ← createCommit plainSuite first.newState emptyPskIndex {} (plainCoins [1]) 0
      let groupInfo ← plainGroupInfo second.newState
      let _ ← plainExternalJoin 4 groupInfo second.newState.ratchetTree
      pure (start.groupContext.epoch, first.newState.groupContext.epoch,
        groupInfo.groupContext.epoch)) = Except.ok (0, 1, 2) := by decide +kernel
  obtain ⟨keyPackage, -, h⟩ := bind_eq_ok.mp h
  obtain ⟨added, -, h⟩ := bind_eq_ok.mp h
  obtain ⟨start, -, h⟩ := bind_eq_ok.mp h
  obtain ⟨first, hfirst, h⟩ := bind_eq_ok.mp h
  obtain ⟨second, hsecond, h⟩ := bind_eq_ok.mp h
  obtain ⟨groupInfo, -, h⟩ := bind_eq_ok.mp h
  obtain ⟨joined, hjoined, h⟩ := bind_eq_ok.mp h
  obtain ⟨hstart, h⟩ := Prod.mk.inj (Except.ok.inj h)
  obtain ⟨hstate, hinfo⟩ := Prod.mk.inj h
  have hunsigned : IsUint64 start.groupContext.epoch := by
    unfold IsUint64
    omega
  have hunsigned' : IsUint64 groupInfo.groupContext.epoch := by
    unfold IsUint64
    omega
  have hrun : Relation.ReflTransGen (BoundedStep plainSuite) start first.newState :=
    .single (.starts (.createCommit hfirst) (by omega))
  have hstarts : StartsEpoch plainSuite first.newState second.newState := .createCommit hsecond
  obtain ⟨hcommits, hexternal⟩ := epochs_survive_iff plainSuite
  obtain ⟨hsurvives, hincreases⟩ := (hcommits _ _ hunsigned hrun).1 _ hstarts
  obtain ⟨joiner, -, hjoin⟩ := bind_eq_ok.mp hjoined
  obtain ⟨hsurvives', hincreases'⟩ := hexternal _ _ _ _ _ _ _ _ _ _ hunsigned' hjoin
  have hbefore : first.newState.groupContext.epoch < 2 ^ 64 - 1 := by omega
  have hbefore' : groupInfo.groupContext.epoch < 2 ^ 64 - 1 := by omega
  exact ⟨⟨start, first.newState, second.newState, hunsigned, hrun, hstarts,
      hsurvives.mpr hbefore, hincreases.mpr hbefore⟩,
    groupInfo, _, joined, hjoined, hsurvives'.mpr hbefore', hincreases'.mpr hbefore'⟩

/-- A member whose creator moved the group to the last epoch that fits joins there, and
commits. -/
def lastEpochCommit : Except MlsError
    (ClientState plainSuite.signature × CreateCommitResult plainSuite.signature) := do
  let creator ← plainKeyPackage 1
  let keyPackage ← plainKeyPackage 2
  let group ← createGroup plainSuite [] creator (plainPrivateKeys 1) [] plainConfig []
  let advanced := { group with groupContext := { group.groupContext with epoch := 2 ^ 64 - 2 } }
  let added ← createCommit plainSuite advanced emptyPskIndex {
    extraProposals := [.add keyPackage]
    ratchetTreeExtension := true } (plainCoins []) 0
  match added.welcome with
  | none => throw (usageError "No member was added")
  | some welcome => do
    let state ← joinGroup plainSuite welcome keyPackage (plainPrivateKeys 2) emptyPskIndex
      { clientConfig := plainConfig } 0
    let committed ← createCommit plainSuite state emptyPskIndex {} (plainCoins []) 0
    pure (state, committed)

/-- A state joined at the last epoch that fits commits to one that is encoded as zero. -/
theorem createCommit_wraps_epoch :
    ∃ welcome keyPackage privateKeys options state committed,
      joinGroup plainSuite welcome keyPackage privateKeys emptyPskIndex options 0 = .ok state ∧
      IsUint64 state.groupContext.epoch ∧
      createCommit plainSuite state emptyPskIndex {} (plainCoins []) 0 = .ok committed ∧
      ¬EpochSurvives committed.newState.groupContext ∧
      ¬EncodedEpochIncreases state.groupContext committed.newState.groupContext := by
  have heval : (lastEpochCommit.map fun r => r.1.groupContext.epoch) = .ok (2 ^ 64 - 1) := by
    decide +kernel
  cases hcommit : lastEpochCommit with
  | error e =>
    rw [hcommit] at heval
    cases heval
  | ok r =>
    rw [hcommit] at heval
    have hepoch : r.1.groupContext.epoch = 2 ^ 64 - 1 := Except.ok.inj heval
    obtain ⟨creator, -, hcommit⟩ := bind_eq_ok.mp hcommit
    obtain ⟨keyPackage, -, hcommit⟩ := bind_eq_ok.mp hcommit
    obtain ⟨group, -, hcommit⟩ := bind_eq_ok.mp hcommit
    obtain ⟨added, -, hcommit⟩ := bind_eq_ok.mp hcommit
    cases hwelcome : added.welcome with
    | none =>
      rw [hwelcome] at hcommit
      cases hcommit
    | some welcome =>
      rw [hwelcome] at hcommit
      obtain ⟨state, hstate, hcommit⟩ := bind_eq_ok.mp hcommit
      obtain ⟨committed, hcommitted, hcommit⟩ := bind_eq_ok.mp hcommit
      obtain rfl := Except.ok.inj hcommit
      dsimp only at hepoch
      have hlast : IsUint64 state.groupContext.epoch := by
        unfold IsUint64
        omega
      obtain ⟨hnext, hencoded⟩ := (StartsEpoch.createCommit hcommitted).spec
      have hiff := survives_succ_iff hlast hnext hencoded
      refine ⟨welcome, keyPackage, _, _, state, committed, hstate, hlast, hcommitted, ?_, ?_⟩
      · rw [hiff.1]
        omega
      · rw [hiff.2]
        omega

end WebcryptoMls
