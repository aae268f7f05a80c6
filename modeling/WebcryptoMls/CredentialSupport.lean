import WebcryptoMls.CommittedLeaves

/-!
# Credential support

Every leaf of a tree is to list the credential type of every leaf, its own included; a
joiner refuses a tree in which one does not. A leaf that a commit brings in is compared
with the other leaves in both directions, and with the leaf it replaces in one, but never
with itself. So a commit keeps the rule exactly when each leaf it brings in lists its own
credential type.
-/
namespace WebcryptoMls

def CredentialsSupported (tree : RatchetTree) : Prop :=
  ∀ n m a b, HoldsLeaf tree n a → HoldsLeaf tree m b →
    b.credential.credentialType ∈ a.capabilities.credentials

def ListsOwnCredential (leaf : LeafNode) : Prop :=
  leaf.credential.credentialType ∈ leaf.capabilities.credentials

instance (leaf : LeafNode) : Decidable (ListsOwnCredential leaf) :=
  inferInstanceAs (Decidable (_ ∈ _))

theorem credentialsSupported_iff {tree : RatchetTree} : CredentialsSupported tree ↔
    ∀ a ∈ tree.filterMap leafOf, ∀ b ∈ tree.filterMap leafOf,
      b.credential.credentialType ∈ a.capabilities.credentials := by
  simp only [mem_filterMap_leafOf]
  constructor
  · rintro h a ⟨n, hn⟩ b ⟨m, hm⟩
    exact h n m a b hn hm
  · intro h n m a b hn hm
    exact h a ⟨n, hn⟩ b ⟨m, hm⟩

instance (tree : RatchetTree) : Decidable (CredentialsSupported tree) :=
  decidable_of_iff _ credentialsSupported_iff.symm

/-! ## The rule of a joiner -/

/-- A tree that a joiner accepts meets the rule. -/
theorem credentialsSupported_of_validateRatchetTree {tree : RatchetTree}
    {groupContext : GroupContext} {config : LifetimeConfig} {authService : AuthenticationService}
    {treeHash : Bytes} {cs : CiphersuiteImpl} {currentTime : ℤ}
    (h : validateRatchetTree tree groupContext config authService treeHash cs currentTime =
      .ok none) : CredentialsSupported tree := by
  unfold validateRatchetTree at h
  split at h
  · cases h
  obtain ⟨verified, -, h⟩ := bind_eq_ok.mp h
  split at h
  · cases h
  obtain ⟨computed, -, h⟩ := bind_eq_ok.mp h
  split at h
  · cases h
  obtain ⟨unmergedError, -, h⟩ := bind_eq_ok.mp h
  cases unmergedError with
  | some e => cases h
  | none =>
    dsimp only at h
    split at h
    · cases h
    · intro n m a b hn hm
      have hround := firstError_eq_none.mp h (some (.leaf b), m)
        (List.mem_zipIdx_iff_getElem?.mpr hm)
      obtain ⟨leafIndex, -, hround⟩ := bind_eq_ok.mp hround
      have hcommon : ∃ prior, validateLeafNodeCommon b groupContext tree authService cs.hpke
          (summarizeLeaves tree) (some leafIndex) prior = .ok none := by
        split at hround
        · exact ⟨_, validateLeafNodeKeyPackage_common hround⟩
        · exact ⟨_, validateLeafNodeUpdateOrCommit_common hround⟩
      obtain ⟨prior, hcommon⟩ := hcommon
      obtain ⟨-, -, -, -, hscan⟩ := (validateLeafNodeCommon_accepts_iff ..).mp hcommon
      exact hscan.supported n a hn

/-! ## Placing leaves -/

section
variable {t t' : RatchetTree} {m : ℕ} {leaf : LeafNode}

/-- A leaf that supports the others, is supported by them and lists its own type. -/
theorem CredentialsSupported.place (h : CredentialsSupported t)
    (hplaced : ∀ n l, HoldsLeaf t' n l → n = m ∧ l = leaf ∨ n ≠ m ∧ HoldsLeaf t n l)
    (hothers : ∀ n l, n ≠ m → HoldsLeaf t n l →
      leaf.credential.credentialType ∈ l.capabilities.credentials ∧
        l.credential.credentialType ∈ leaf.capabilities.credentials)
    (hown : ListsOwnCredential leaf) : CredentialsSupported t' := by
  intro n k a b ha hb
  rcases hplaced n a ha with ⟨-, rfl⟩ | ⟨hn, ha⟩ <;> rcases hplaced k b hb with ⟨-, rfl⟩ | ⟨hk, hb⟩
  · exact hown
  · exact (hothers k b hk hb).2
  · exact (hothers n a hn ha).1
  · exact h n k a b ha hb

/-- A leaf that passed the scan does the first two. -/
theorem AcceptedByScan.credentials {leafIndex : Option ℕ} (hscan : AcceptedByScan t leafIndex leaf)
    (houtside : ∀ n, n ≠ m → ¬ isReplaced leafIndex n) {n : ℕ} {l : LeafNode} (hn : n ≠ m)
    (hl : HoldsLeaf t n l) : leaf.credential.credentialType ∈ l.capabilities.credentials ∧
      l.credential.credentialType ∈ leaf.capabilities.credentials :=
  ⟨hscan.supported n l hl, hscan.inUse n l (houtside n hn) hl⟩

variable {cs : CiphersuiteImpl} {gc : GroupContext} {authService : AuthenticationService}
  {brought : List LeafNode}

theorem CredentialsSupported.step (h : CredentialsSupported t)
    (hs : LeafStep cs gc authService t t' brought) (hown : ∀ l ∈ brought, ListsOwnCredential l) :
    CredentialsSupported t' := by
  cases hs with
  | kept hk => exact fun n m a b ha hb => h n m a b (hk.holdsLeaf ha) (hk.holdsLeaf hb)
  | @placed m leafIndex leaf prior hvalid houtside hp =>
    obtain ⟨-, -, -, -, hscan⟩ := (validateLeafNodeCommon_accepts_iff ..).mp hvalid
    exact h.place (fun n l hl => hp.holdsLeaf hl) (fun n l hn hl => hscan.credentials houtside hn hl)
      (hown leaf List.mem_cons_self)

theorem CredentialsSupported.steps (h : CredentialsSupported t)
    (hs : LeafSteps cs gc authService t brought t') (hown : ∀ l ∈ brought, ListsOwnCredential l) :
    CredentialsSupported t' := by
  induction hs with
  | refl t => exact h
  | head first _ ih =>
    rw [List.forall_mem_append] at hown
    exact ih (h.step first hown.1) hown.2

/-- A path that is created without a patch leaves the leaf's credential and capabilities. -/
theorem CredentialsSupported.createdPath {i : ℕ} {key : cs.signature.SignatureSecretKey}
    {coins : PathCoins} {exclude : List ℤ} {created : CreatedPath cs}
    (h : CredentialsSupported t)
    (hcreate : createUpdatePath t i gc cs key coins exclude = .ok created) :
    CredentialsSupported created.tree := by
  obtain ⟨original, horiginal, hcredential, hcapabilities, hplaced⟩ := createUpdatePath_leaf hcreate
  have hread : ∀ n l, HoldsLeaf created.tree n l → ∃ l', HoldsLeaf t n l' ∧
      l.credential = l'.credential ∧ l.capabilities = l'.capabilities := by
    intro n l hl
    rcases hplaced n l hl with ⟨rfl, rfl⟩ | ⟨-, hl⟩
    · exact ⟨original, horiginal, hcredential, hcapabilities⟩
    · exact ⟨l, hl, rfl, rfl⟩
  intro n k a b ha hb
  obtain ⟨a', ha', -, hcap⟩ := hread n a ha
  obtain ⟨b', hb', hcred, -⟩ := hread k b hb
  rw [hcap, hcred]
  exact h n k a' b' ha' hb'

end

/-! ## Commits -/

section
variable {cs : CiphersuiteImpl}

/-- The leaves a commit brings in: of its Updates, of its Adds and of its path. -/
def commitLeaves (state : ClientState cs.signature) (sender : Sender) (commit : Commit) :
    Except MlsError (List LeafNode) := do
  let allProposals ← resolveProposals state (getSenderLeafNodeIndex sender) sender.senderType
    commit.proposals
  pure (proposedLeaves (groupProposals allProposals) ++ pathLeaves commit.path)

/-- The commit that `createCommit` signs. -/
def createdCommit (state : ClientState cs.signature) (pskIndex : PskIndex)
    (options : CreateCommitOptions cs.signature) (coins : CommitCoins) (currentTime : ℤ) :
    Except MlsError Commit := do
  let patch ← options.leafNodePatch.mapM (resolveLeafNodePatch cs)
  let pendingRefs ← filterPendingProposals cs state options.extraProposals currentTime
  let allProposals := bundleAllProposals pendingRefs options.extraProposals
  let res ← applyProposals cs state allProposals (some state.privatePath.leafIndex) pskIndex true
    none .member currentTime
  let path ← createCommitPath cs state res patch coins.path
  pure { proposals := allProposals, path := path.updatePath }

/-- The commit a message holds. -/
def commitIn (state : ClientState cs.signature) (message : MlsHandshakeMessage) :
    Except MlsError (Option (Sender × Commit)) := do
  let content ← readContent cs state message
  match content.content.info with
  | .commit commit => pure (some (content.content.sender, commit))
  | _ => pure none

theorem commitIn_eq {state : ClientState cs.signature} {message : MlsHandshakeMessage}
    {content : AuthenticatedContent} {commit : Commit}
    (h : readContent cs state message = .ok content) (hcommit : content.content.info = .commit commit) :
    commitIn state message = .ok (some (content.content.sender, commit)) := by
  simp only [commitIn, h, ok_bind, hcommit]
  rfl

variable {state : ClientState cs.signature} {p : CommitParts cs} {pskIndex : PskIndex}
  {options : CreateCommitOptions cs.signature} {coins : CommitCoins} {currentTime : ℤ}
  {result : CreateCommitResult cs.signature}

theorem CommitParts.Creates.createdCommit_eq
    (h : p.Creates state pskIndex options coins currentTime result)
    (hb : p.Bundles state options currentTime result) :
    createdCommit state pskIndex options coins currentTime =
      .ok { proposals := p.proposals, path := p.path.updatePath } := by
  obtain ⟨pendingRefs, hpending, hproposals⟩ := hb.proposals
  have happlied := h.applied
  rw [hproposals] at happlied
  simp only [createdCommit, hb.patch, ok_bind, hpending, happlied, h.path, hproposals]
  rfl

/-- The path's leaf, if there is one, is checked or keeps what the committer's leaf lists. -/
theorem CredentialsSupported.createCommitPath {res : ApplyProposalsResult}
    {patch : Option (ResolvedLeafNodePatch cs.signature)} {coins : PathCoins} {path : CommitPath cs}
    (h : CredentialsSupported res.tree)
    (hpath : createCommitPath cs state res patch coins = .ok path)
    (hown : ∀ l ∈ pathLeaves path.updatePath, ListsOwnCredential l) :
    CredentialsSupported path.tree := by
  unfold WebcryptoMls.createCommitPath at hpath
  dsimp only at hpath
  split at hpath
  · split_ifs at hpath
    · obtain ⟨created, hcreate, hpath⟩ := bind_eq_ok.mp hpath
      obtain rfl := Except.ok.inj hpath
      exact h.createdPath hcreate
    · obtain rfl := Except.ok.inj hpath
      exact h
  · obtain ⟨created, hcreate, hpath⟩ := bind_eq_ok.mp hpath
    obtain ⟨err, hvalid, hpath⟩ := bind_eq_ok.mp hpath
    obtain ⟨_, hnone, hpath⟩ := bind_eq_ok.mp hpath
    obtain rfl := Except.ok.inj hpath
    rw [throwIfDefined_eq_ok.mp hnone] at hvalid
    obtain ⟨-, -, -, -, hscan⟩ :=
      (validateLeafNodeCommon_accepts_iff ..).mp (validateLeafNodeUpdateOrCommit_common hvalid)
    obtain ⟨-, -, -, -, hplaced⟩ := createUpdatePath_leaf hcreate
    exact h.place hplaced (fun n l hn hl => hscan.credentials
      (fun n hn hrep => hn (isReplaced_some.mp hrep)) hn hl)
      (hown _ (by simp [pathLeaves, CreatedPath.commitPath]))

end

section
variable (cs : CiphersuiteImpl)

/-- A commit keeps the rule where each leaf it brings in lists its own credential type, and
nowhere else where the committer's own leaf is in the tree. A client that a commit removes
keeps its tree. -/
theorem commits_keep_credentials_supported (state : ClientState cs.signature)
    (hstate : CredentialsSupported state.ratchetTree) :
    (∀ pskIndex options coins currentTime result,
      createCommit cs state pskIndex options coins currentTime = .ok result →
      ∃ commit leaves, createdCommit state pskIndex options coins currentTime = .ok commit ∧
        commitLeaves state (.member state.privatePath.leafIndex) commit = .ok leaves ∧
        ((∀ leaf ∈ leaves, ListsOwnCredential leaf) →
          CredentialsSupported result.newState.ratchetTree) ∧
        (FullTree state.ratchetTree →
          leafSlots state.ratchetTree state.privatePath.leafIndex ≠ none →
          CredentialsSupported result.newState.ratchetTree →
          ∀ leaf ∈ leaves, ListsOwnCredential leaf)) ∧
    (∀ message pskIndex action currentTime newState committer,
      processMessage cs message state pskIndex action currentTime =
        .ok (.newState newState .accept (some committer)) →
      newState.groupActiveState = .removedFromGroup ∧
          newState.ratchetTree = state.ratchetTree ∨
        ∃ sender commit leaves, commitIn state message = .ok (some (sender, commit)) ∧
          commitLeaves state sender commit = .ok leaves ∧
          ((∀ leaf ∈ leaves, ListsOwnCredential leaf) → CredentialsSupported newState.ratchetTree) ∧
          (FullTree state.ratchetTree → CredentialsSupported newState.ratchetTree →
            ∀ leaf ∈ leaves, ListsOwnCredential leaf)) := by
  have hheld {t : RatchetTree} {leaf : LeafNode} (hsupported : CredentialsSupported t)
      (hplace : ∃ i, leafSlots t i = some (.leaf leaf)) : ListsOwnCredential leaf := by
    obtain ⟨i, hi⟩ := hplace
    rw [leafSlots, slot_eq_getElem?, Option.join_eq_some_iff] at hi
    exact hsupported _ _ leaf leaf hi hi
  constructor
  · intro pskIndex options coins currentTime result h
    obtain ⟨p, hbundles, hcreates⟩ := createCommit_parts h
    obtain ⟨allProposals, hall, hsteps⟩ := applyProposals_steps hcreates.applied
    have hleaves : commitLeaves state (.member state.privatePath.leafIndex)
        { proposals := p.proposals, path := p.path.updatePath } =
        .ok (proposedLeaves (groupProposals allProposals) ++ pathLeaves p.path.updatePath) :=
      bind_eq_ok.mpr ⟨allProposals, hall, rfl⟩
    refine ⟨_, _, hcreates.createdCommit_eq hbundles, hleaves, fun hown => ?_,
      fun hfull hfilled hsupported leaf hleaf => ?_⟩
    · rw [List.forall_mem_append] at hown
      rw [hcreates.ratchetTree]
      exact (hstate.steps hsteps hown.1).createCommitPath hcreates.path hown.2
    · obtain ⟨-, allProposals', hall', hcommitted⟩ := hcreates.leaves hfull
      obtain rfl := Except.ok.inj (hall.symm.trans hall')
      obtain ⟨hnodup, hnot⟩ := applyProposals_targets hall hcreates.applied
      exact hheld hsupported (hcommitted.exists_place hnodup
        (fun _ => .inl ⟨hnot rfl _ rfl, hfilled⟩) hleaf)
  · intro message pskIndex action currentTime newState committer h
    cases processMessage_processed h with
    | removed current => exact .inl ⟨rfl, rfl⟩
    | followed current f content commit follows =>
      obtain ⟨allProposals, mid, keys, hall, hsteps, -, -, hwritten⟩ := follows.steps
      refine .inr ⟨f.content.content.sender, f.commit, _, commitIn_eq content commit,
        bind_eq_ok.mpr ⟨allProposals, hall, rfl⟩, fun hown n m a b ha hb => ?_,
        fun hfull hsupported leaf hleaf => ?_⟩
      · exact (hstate.steps hsteps hown) n m a b (hwritten.holdsLeaf ha) (hwritten.holdsLeaf hb)
      · obtain ⟨-, allProposals', place, hall', hplace, hcommitted⟩ := follows.leaves hfull
        obtain rfl := Except.ok.inj (hall.symm.trans hall')
        obtain ⟨hnodup, hnot⟩ := applyProposals_targets hall follows.applied
        refine hheld hsupported (hcommitted.exists_place hnodup (fun hpath => ?_) hleaf)
        rcases hplace with hmember | ⟨-, hblank⟩
        · obtain ⟨own, hfilled⟩ := readContent_sender content hmember
          refine .inl ⟨hnot (by rw [hmember]; rfl) _ (by rw [hmember]; rfl), ?_⟩
          change leafSlots state.ratchetTree place ≠ none
          rw [hfilled]
          exact Option.some_ne_none _
        · exact .inr (hblank hpath)

end

/-! ## A committer that no longer lists its own type -/

/-- The committer's leaf is to list these credential types. -/
def listing (credentials : List CredentialTypeName) : CreateCommitOptions plainSuite.signature where
  leafNodePatch := some {
    capabilities := some { (plainLeaf 1).capabilities with credentials := credentials } }

/-- The only member of a group. -/
def loneMember : Except MlsError (ClientState plainSuite.signature) := do
  let keyPackage ← plainKeyPackage 1
  createGroup plainSuite [] keyPackage (plainPrivateKeys 1) [] plainConfig []

/-- Whether the rule holds before the only member commits, whether the leaves it brings in
list their own types, and whether the rule holds afterwards. -/
def listingOutcome (credentials : List CredentialTypeName) : Except MlsError (Bool × Bool × Bool) := do
  let state ← loneMember
  let result ← createCommit plainSuite state emptyPskIndex (listing credentials) (plainCoins [1]) 0
  let commit ← createdCommit state emptyPskIndex (listing credentials) (plainCoins [1]) 0
  let leaves ← commitLeaves state (.member state.privatePath.leafIndex) commit
  pure (decide (CredentialsSupported state.ratchetTree),
    decide (∀ leaf ∈ leaves, ListsOwnCredential leaf),
    decide (CredentialsSupported result.newState.ratchetTree))

theorem listingOutcome_eq_ok {credentials : List CredentialTypeName} {before own after : Bool}
    (h : listingOutcome credentials = .ok (before, own, after)) : ∃ state result commit leaves,
      createCommit plainSuite state emptyPskIndex (listing credentials) (plainCoins [1]) 0 =
        .ok result ∧
      createdCommit state emptyPskIndex (listing credentials) (plainCoins [1]) 0 = .ok commit ∧
      commitLeaves state (.member state.privatePath.leafIndex) commit = .ok leaves ∧
      decide (CredentialsSupported state.ratchetTree) = before ∧
      decide (∀ leaf ∈ leaves, ListsOwnCredential leaf) = own ∧
      decide (CredentialsSupported result.newState.ratchetTree) = after := by
  obtain ⟨state, -, h⟩ := bind_eq_ok.mp h
  obtain ⟨result, hresult, h⟩ := bind_eq_ok.mp h
  obtain ⟨commit, hcommit, h⟩ := bind_eq_ok.mp h
  obtain ⟨leaves, hleaves, h⟩ := bind_eq_ok.mp h
  simp only [pure, Except.pure, Except.ok.injEq, Prod.mk.injEq] at h
  exact ⟨state, result, commit, leaves, hresult, hcommit, hleaves, h⟩

/-- The only member drops its own credential type from its capabilities, and the commit is
created. -/
theorem commit_drops_own_credential : ∃ (state : ClientState plainSuite.signature)
    (result : CreateCommitResult plainSuite.signature), CredentialsSupported state.ratchetTree ∧
      createCommit plainSuite state emptyPskIndex (listing []) (plainCoins [1]) 0 = .ok result ∧
      ¬ CredentialsSupported result.newState.ratchetTree := by
  have heval : listingOutcome [] = .ok (true, false, false) := by decide +kernel
  obtain ⟨state, result, commit, leaves, hresult, -, -, hbefore, -, hafter⟩ :=
    listingOutcome_eq_ok heval
  exact ⟨state, result, of_decide_eq_true hbefore, hresult, of_decide_eq_false hafter⟩

/-- It lists its own type, and the rule is kept. -/
theorem commit_keeps_own_credential : ∃ (state : ClientState plainSuite.signature)
    (result : CreateCommitResult plainSuite.signature), CredentialsSupported state.ratchetTree ∧
      createCommit plainSuite state emptyPskIndex (listing [.basic]) (plainCoins [1]) 0 =
        .ok result ∧ CredentialsSupported result.newState.ratchetTree := by
  have heval : listingOutcome [.basic] = .ok (true, true, true) := by decide +kernel
  obtain ⟨state, result, commit, leaves, hresult, hcommit, hleaves, hbefore, hown, -⟩ :=
    listingOutcome_eq_ok heval
  have hstate := of_decide_eq_true hbefore
  obtain ⟨commit', leaves', hcommit', hleaves', hkeeps, -⟩ :=
    (commits_keep_credentials_supported plainSuite state hstate).1 _ _ _ _ _ hresult
  obtain rfl := Except.ok.inj (hcommit.symm.trans hcommit')
  obtain rfl := Except.ok.inj (hleaves.symm.trans hleaves')
  exact ⟨state, result, hstate, hresult, hkeeps (of_decide_eq_true hown)⟩

end WebcryptoMls
