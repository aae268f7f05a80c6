import WebcryptoMls.CommittedLeaves
import WebcryptoMls.Transfers

/-!
# The checks of a commit that are a client's own

Two members of one epoch check a commit alike but for what their applications decide: whose
credentials they accept, which key packages they take for one client's, how long a lifetime
they allow, by which clock, and which custom proposals they know. Where one of them applies
the proposals of a commit, the other does exactly if these checks of its own pass.
-/
namespace WebcryptoMls
open Transfers

variable {cs : CiphersuiteImpl}

/-- A check that passes on one side passes on the other on a condition. -/
theorem followsIf_check {α : Type} {P Q : Prop} {x y : Except MlsError (Option MlsError)}
    {next next' : Except MlsError α} (h : x = .ok none → (y = .ok none ↔ P))
    (hnext : FollowsIf Q next next') :
    FollowsIf (P ∧ Q) (do let err ← x; throwIfDefined err; next)
      (do let err ← y; throwIfDefined err; next') := by
  intro a ha
  obtain ⟨err, hx, ha⟩ := bind_eq_ok.mp ha
  obtain ⟨_, hnone, ha⟩ := bind_eq_ok.mp ha
  rw [throwIfDefined_eq_ok.mp hnone] at hx
  constructor
  · rintro ⟨hP, hQ⟩
    rw [(h hx).mpr hP]
    exact hnext.eq_ok ha hQ
  · intro b hb
    obtain ⟨err, hy, hb⟩ := bind_eq_ok.mp hb
    obtain ⟨_, hnone, hb⟩ := bind_eq_ok.mp hb
    rw [throwIfDefined_eq_ok.mp hnone] at hy
    exact ⟨(h hx).mp hy, hnext.holds ha hb⟩

/-! ## Leaves -/

/-- The application takes the credential for the leaf's, after this one. -/
def AuthenticationService.AcceptsLeaf (authService : AuthenticationService) (leaf : LeafNode)
    (priorCredential : Option Credential) : Prop :=
  authService.validateCredential leaf.credential leaf.signaturePublicKey priorCredential = .ok true

section
variable {leaf : LeafNode} {gc : GroupContext} {tree : RatchetTree}
  {authService memberService : AuthenticationService} {hpke : Hpke} {sig : Signature}
  {leaves : LeafSummary} {leafIndex : Option ℕ} {prior : Option Credential}

theorem validateLeafNodeCommon_iff
    (h : validateLeafNodeCommon leaf gc tree memberService hpke leaves leafIndex prior =
      .ok none) :
    validateLeafNodeCommon leaf gc tree authService hpke leaves leafIndex prior = .ok none ↔
      authService.AcceptsLeaf leaf prior := by
  obtain ⟨keyError, hkey, h⟩ := bind_eq_ok.mp h
  cases keyError with
  | some e => cases h
  | none =>
    obtain ⟨credentialValid, -, h⟩ := bind_eq_ok.mp h
    cases credentialValid with
    | false => cases h
    | true =>
      simp only [validateLeafNodeCommon, hkey, ok_bind]
      constructor
      · intro h'
        obtain ⟨credentialValid, hvalid, h'⟩ := bind_eq_ok.mp h'
        cases credentialValid with
        | false => cases h'
        | true => exact hvalid
      · intro haccepts
        rw [haccepts]
        exact h

theorem validateLeafNodeUpdateOrCommit_iff {i : ℕ}
    (h : validateLeafNodeUpdateOrCommit leaf i gc tree memberService sig hpke prior leaves =
      .ok none) :
    validateLeafNodeUpdateOrCommit leaf i gc tree authService sig hpke prior leaves = .ok none ↔
      authService.AcceptsLeaf leaf prior := by
  obtain ⟨smallOrder, hsmall, h⟩ := bind_eq_ok.mp h
  cases smallOrder with
  | true => cases h
  | false =>
    obtain ⟨signatureValid, hsignature, h⟩ := bind_eq_ok.mp h
    cases signatureValid with
    | false => cases h
    | true =>
      rw [← validateLeafNodeCommon_iff h]
      simp only [validateLeafNodeUpdateOrCommit, hsmall, ok_bind, hsignature]
      rfl

theorem validateLeafNodeKeyPackage_iff {config memberConfig : LifetimeConfig} {time memberTime : ℤ}
    {sentByClient : Bool}
    (h : validateLeafNodeKeyPackage leaf gc tree sentByClient memberConfig memberService leafIndex
      sig hpke leaves memberTime = .ok none) :
    validateLeafNodeKeyPackage leaf gc tree sentByClient config authService leafIndex sig hpke
      leaves time = .ok none ↔
      validateLifetime leaf sentByClient config time = none ∧ authService.AcceptsLeaf leaf none := by
  obtain ⟨smallOrder, hsmall, h⟩ := bind_eq_ok.mp h
  cases smallOrder with
  | true => cases h
  | false =>
    obtain ⟨signatureValid, hsignature, h⟩ := bind_eq_ok.mp h
    cases signatureValid with
    | false => cases h
    | true =>
      cases hmember : validateLifetime leaf sentByClient memberConfig memberTime with
      | some e =>
        simp only [hmember] at h
        cases h
      | none =>
        simp only [hmember] at h
        rw [← validateLeafNodeCommon_iff h]
        simp only [validateLeafNodeKeyPackage, hsmall, ok_bind, hsignature]
        cases validateLifetime leaf sentByClient config time with
        | some e => simp [pure, Except.pure]
        | none => simp

theorem validateKeyPackage_iff {kp : KeyPackage} {config memberConfig : LifetimeConfig}
    {time memberTime : ℤ} {sentByClient : Bool}
    (h : validateKeyPackage kp gc tree sentByClient memberConfig memberService sig hpke memberTime =
      .ok none) :
    validateKeyPackage kp gc tree sentByClient config authService sig hpke time = .ok none ↔
      validateLifetime kp.leafNode.leaf sentByClient config time = none ∧
        authService.AcceptsLeaf kp.leafNode.leaf none := by
  unfold validateKeyPackage at h ⊢
  by_cases hsuite : kp.cipherSuite ≠ gc.cipherSuite
  · rw [if_pos hsuite] at h
    cases h
  by_cases hversion : kp.version ≠ gc.version
  · rw [if_neg hsuite, if_pos hversion] at h
    cases h
  rw [if_neg hsuite, if_neg hversion] at h ⊢
  obtain ⟨leafNodeError, hleaf, h⟩ := bind_eq_ok.mp h
  cases leafNodeError with
  | some e => cases h
  | none =>
    rw [← validateLeafNodeKeyPackage_iff hleaf, bind_eq_ok]
    constructor
    · rintro ⟨leafNodeError, hleaf', h'⟩
      cases leafNodeError with
      | some e => cases h'
      | none => exact hleaf'
    · exact fun hleaf' => ⟨none, hleaf', h⟩

end

/-! ## Proposals -/

section
variable {grouped : Proposals} {authService memberService : AuthenticationService}
  {config memberConfig : KeyPackageEqualityConfig} {committerLeafIndex : Option ℕ}
  {groupContext contextAfter : GroupContext} {tree : RatchetTree}

/-- Behind the check of the required capabilities the external senders are checked. -/
theorem validateRequiredCapabilities_iff {extensions : List Extension}
    {remaining : List Capabilities}
    (h : validateRequiredCapabilities grouped extensions remaining memberService = .ok none) :
    validateRequiredCapabilities grouped extensions remaining authService = .ok none ↔
      validateExternalSenders extensions authService = .ok none := by
  unfold validateRequiredCapabilities at h ⊢
  split at h
  · rfl
  · obtain ⟨caps, hcaps, h⟩ := bind_eq_ok.mp h
    rw [hcaps, ok_bind]
    cases caps with
    | none => cases h
    | some caps =>
      dsimp only at h ⊢
      split_ifs at h ⊢
      · cases h
      · cases h
      · rfl

theorem validateProposalExtensions_iff
    (h : validateProposalExtensions grouped groupContext memberService tree = .ok none) :
    validateProposalExtensions grouped groupContext authService tree = .ok none ↔
      validateExternalSenders (flattenExtensions grouped.group_context_extensions) authService =
        .ok none := by
  obtain ⟨duplicatePskError, hduplicate, h⟩ := bind_eq_ok.mp h
  cases duplicatePskError with
  | some e => cases h
  | none =>
    simp only [validateProposalExtensions, hduplicate, ok_bind]
    cases hpsk : validatePskProposals (grouped.psk.map Sent.proposal) groupContext with
    | some e =>
      simp only [hpsk] at h
      cases h
    | none =>
      simp only [hpsk] at h ⊢
      by_cases hmultiple : grouped.group_context_extensions.length > 1
      · rw [if_pos hmultiple] at h
        cases h
      rw [if_neg hmultiple] at h ⊢
      obtain ⟨remaining, hremaining, h⟩ := bind_eq_ok.mp h
      rw [hremaining, ok_bind]
      by_cases hsupported : (flattenExtensions grouped.group_context_extensions).length > 0 ∧
          (!(remaining.all (extensionsSupportedByCapabilities
            (flattenExtensions grouped.group_context_extensions)))) = true
      · rw [if_pos hsupported] at h
        cases h
      rw [if_neg hsupported] at h ⊢
      exact validateRequiredCapabilities_iff h

/-- The application tells the key packages of the Adds apart, and from the members'. -/
structure KeyPackageEqualityConfig.TellsApart (config : KeyPackageEqualityConfig)
    (tree : RatchetTree) (grouped : Proposals) : Prop where
  added : someTwo (fun a b => config.compareKeyPackages a.proposal b.proposal) grouped.add = false
  members : (grouped.add.anyM fun a =>
    tree.zipIdx.anyM (addsExistingClient config grouped.remove a.proposal)) = .ok false

theorem validateProposals_iff
    (h : validateProposals grouped committerLeafIndex groupContext contextAfter memberConfig
      memberService tree = .ok none) :
    validateProposals grouped committerLeafIndex groupContext contextAfter config authService tree =
      .ok none ↔ config.TellsApart tree grouped ∧
        validateExternalSenders (flattenExtensions grouped.group_context_extensions) authService =
          .ok none := by
  unfold validateProposals at h ⊢
  split at h
  · cases h
  rename_i hupdate
  split at h
  · cases h
  rename_i hremove
  split at h
  · cases h
  rename_i hdistinct
  split at h
  · cases h
  obtain ⟨existing, -, h⟩ := bind_eq_ok.mp h
  split at h
  · cases h
  split at h
  · cases h
  rename_i hextensions
  rw [if_neg hupdate, if_neg hremove, if_neg hdistinct, ← validateProposalExtensions_iff h]
  constructor
  · intro h'
    split at h'
    · cases h'
    rename_i hadded
    obtain ⟨existing, hmembers, h'⟩ := bind_eq_ok.mp h'
    cases existing with
    | true => cases h'
    | false =>
      rw [if_neg (by simp)] at h'
      exact ⟨⟨Bool.eq_false_iff.mpr hadded, hmembers⟩, h'⟩
  · rintro ⟨⟨hadded, hmembers⟩, hlast⟩
    rw [if_neg (by simp [hadded]), hmembers, ok_bind, if_neg (by simp), if_neg hextensions]
    exact hlast

end

/-! ## The tree -/

theorem credentialAtLeaf_congr {t t' : RatchetTree} {i : ℕ} (h : leafSlots t i = leafSlots t' i) :
    credentialAtLeaf t i = credentialAtLeaf t' i := by
  simp only [leafSlots] at h
  simp only [credentialAtLeaf, leafAt, leafToNodeIndex_eq, nodeAt_coord, h]

/-- The application accepts the leaves of the Updates, each after the one it replaces, and
those of the Adds, whose lifetimes it allows. -/
structure TreeMutations.AcceptsLeaves (m : TreeMutations) (tree : RatchetTree)
    (grouped : Proposals) : Prop where
  updates : ∀ u ∈ grouped.update, ∀ i, u.senderLeafIndex = some i →
    m.authService.AcceptsLeaf u.proposal.leaf (credentialAtLeaf tree i)
  adds : ∀ a ∈ grouped.add,
    validateLifetime a.proposal.leafNode.leaf m.sentByClient m.lifetimeConfig m.currentTime = none ∧
      m.authService.AcceptsLeaf a.proposal.leafNode.leaf none

section
variable {m memberMutations : TreeMutations} {ratchetTree tree : RatchetTree} {grouped : Proposals}

theorem followsIf_applyUpdate {update : Sent LeafNodeUpdate} (hgc : m.gc = memberMutations.gc) :
    FollowsIf (∀ i, update.senderLeafIndex = some i →
        m.authService.AcceptsLeaf update.proposal.leaf (credentialAtLeaf tree i))
      (applyUpdate cs memberMutations ratchetTree tree update)
      (applyUpdate cs m ratchetTree tree update) := by
  unfold applyUpdate
  cases hsender : update.senderLeafIndex with
  | none => exact (FollowsIf.refl _).of_iff (by simp)
  | some i =>
    simp only [Option.some.injEq, forall_eq', hgc]
    refine ((FollowsIf.refl _).bind fun _ _ => followsIf_check
      (fun h => validateLeafNodeUpdateOrCommit_iff h) (FollowsIf.refl _)).of_iff ?_
    simp

theorem followsIf_applyAdd {acc : RatchetTree × List (ℕ × KeyPackage)} {add : Sent KeyPackage}
    (hgc : m.gc = memberMutations.gc) (hsent : m.sentByClient = memberMutations.sentByClient) :
    FollowsIf (validateLifetime add.proposal.leafNode.leaf m.sentByClient m.lifetimeConfig
        m.currentTime = none ∧ m.authService.AcceptsLeaf add.proposal.leafNode.leaf none)
      (applyAdd cs memberMutations acc add) (applyAdd cs m acc add) := by
  unfold applyAdd
  rw [hgc, hsent]
  exact (followsIf_check (fun h => validateKeyPackage_iff h) (FollowsIf.refl _)).of_iff (by simp)

/-- No leaf is updated twice, so an Update replaces the leaf that stands in the tree at
first. -/
theorem followsIf_applyTreeMutations (hgc : m.gc = memberMutations.gc)
    (hsent : m.sentByClient = memberMutations.sentByClient)
    (hnodup : ((proposedChanges grouped).map LeafChange.target).Nodup) :
    FollowsIf (m.AcceptsLeaves tree grouped) (applyTreeMutations tree grouped memberMutations cs)
      (applyTreeMutations tree grouped m cs) := by
  have hupdates : FollowsIf (∀ u ∈ grouped.update, ∀ i, u.senderLeafIndex = some i →
        m.authService.AcceptsLeaf u.proposal.leaf (credentialAtLeaf tree i))
      (grouped.update.foldlM (applyUpdate cs memberMutations tree) tree)
      (grouped.update.foldlM (applyUpdate cs m tree) tree) := by
    refine FollowsIf.foldlM fun before u after hsplit c hc => ?_
    refine (followsIf_applyUpdate hgc).of_iff (forall₂_congr fun i hi => ?_)
    have hslots := (applyChanges_leafSlots (foldlM_applyUpdate hc)).2
    have hnot : i ∉ (before.map fun u => LeafChange.update u.proposal.leaf
        (u.senderLeafIndex.getD 0)).map LeafChange.target := by
      rw [proposedChanges, List.map_append] at hnodup
      have hupdated := (List.nodup_append.mp hnodup).1
      rw [hsplit, List.map_append, List.map_append] at hupdated
      refine fun hmem => (List.nodup_append.mp hupdated).2.2 i hmem i ?_ rfl
      simp [LeafChange.target, hi]
    rw [credentialAtLeaf_congr ((congrFun hslots i).trans (afterChanges_of_notMem hnot))]
  have hadds : ∀ start, FollowsIf (∀ a ∈ grouped.add,
      validateLifetime a.proposal.leafNode.leaf m.sentByClient m.lifetimeConfig m.currentTime =
        none ∧ m.authService.AcceptsLeaf a.proposal.leafNode.leaf none)
      (grouped.add.foldlM (applyAdd cs memberMutations) (start, []))
      (grouped.add.foldlM (applyAdd cs m) (start, [])) := fun start =>
    FollowsIf.foldlM fun _ _ _ _ _ _ => followsIf_applyAdd hgc hsent
  refine (hupdates.bind fun _ _ => (FollowsIf.refl _).bind fun start _ => hadds start).of_iff ?_
  constructor
  · rintro ⟨hupdates, -, hadds⟩
    exact ⟨hupdates, hadds⟩
  · rintro ⟨hupdates, hadds⟩
    exact ⟨hupdates, trivial, hadds⟩

end

/-! ## A client's own checks -/

/-- What a client reads when it checks the leaves of a commit it receives. -/
def receiverMutations (config : ClientConfig) (groupContext : GroupContext) (grouped : Proposals)
    (currentTime : ℤ) : TreeMutations where
  gc := groupContextAfterExtensions groupContext grouped
  sentByClient := false
  authService := config.authService
  lifetimeConfig := config.lifetimeConfig
  currentTime := currentTime

/-- Of a commit's proposals: the application knows the custom ones, tells the key packages
apart and accepts the external senders and the leaves. -/
structure ProposalChecks (config : ClientConfig) (groupContext : GroupContext) (tree : RatchetTree)
    (allProposals : List ProposalWithSender) (currentTime : ℤ) : Prop where
  customTypes : ∀ p ∈ allProposals,
    isUnsupportedCustomProposal config.supportedCustomProposalTypes p = false
  keyPackages : config.keyPackageEqualityConfig.TellsApart tree (groupProposals allProposals)
  externalSenders : validateExternalSenders
    (flattenExtensions (groupProposals allProposals).group_context_extensions) config.authService =
      .ok none
  leaves : (receiverMutations config groupContext (groupProposals allProposals)
    currentTime).AcceptsLeaves tree (groupProposals allProposals)

/-- Of the path of a member's commit: the application accepts its leaf, after the committer's. -/
def PathCheck (config : ClientConfig) (tree : RatchetTree) (sender : Sender)
    (path : Option UpdatePath) : Prop :=
  ∀ updatePath i, path = some updatePath → sender = .member i →
    config.authService.AcceptsLeaf updatePath.leafNode.leaf (credentialAtLeaf tree i)

section
variable {state : ClientState cs.signature} {proposals : List ProposalOrRef}
  {allProposals : List ProposalWithSender} {committerLeafIndex : Option ℕ} {pskSearch : PskIndex}
  {sentByClient : Bool} {newMemberLeafNode : Option LeafNode} {senderType : SenderTypeName}
  {currentTime : ℤ} {result : ApplyProposalsResult}

/-- A commit without an ExternalInit and a ReInit is a member's. -/
theorem applyProposals_member_iff
    (hall : resolveProposals state committerLeafIndex senderType proposals = .ok allProposals)
    (hexternal : (groupProposals allProposals).external_init = [])
    (hreinit : (groupProposals allProposals).reinit = []) :
    applyProposals cs state proposals committerLeafIndex pskSearch sentByClient newMemberLeafNode
      senderType currentTime = .ok result ↔
      (∀ p ∈ allProposals,
        isUnsupportedCustomProposal state.clientConfig.supportedCustomProposalTypes p = false) ∧
      validateExternalInitSenderType senderType 0 = none ∧
      applyMemberProposals cs state allProposals (groupProposals allProposals) committerLeafIndex
        pskSearch sentByClient currentTime = .ok result := by
  rw [resolveProposals] at hall
  simp only [applyProposals, hall, ok_bind, applyGroupedProposals, hexternal, hreinit,
    List.length_nil, gt_iff_lt, lt_irrefl, if_false]
  cases hfind : allProposals.find?
      (isUnsupportedCustomProposal state.clientConfig.supportedCustomProposalTypes) with
  | some p =>
    have hp := List.find?_some hfind
    constructor
    · intro h
      cases h
    · intro h
      rw [h.1 p (List.mem_of_find?_eq_some hfind)] at hp
      cases hp
  | none =>
    have hknown : ∀ p ∈ allProposals,
        isUnsupportedCustomProposal state.clientConfig.supportedCustomProposalTypes p = false :=
      fun p hp => Bool.eq_false_iff.mpr (List.find?_eq_none.mp hfind p hp)
    dsimp only
    rw [bind_eq_ok]
    constructor
    · rintro ⟨_, hsender, h⟩
      exact ⟨hknown, throwIfDefined_eq_ok.mp hsender, h⟩
    · rintro ⟨-, hsender, h⟩
      exact ⟨⟨⟩, throwIfDefined_eq_ok.mpr hsender, h⟩

/-- A ReInit stands alone, so a commit with a Remove has none. -/
theorem reinit_eq_nil_of_remove
    (hall : resolveProposals state committerLeafIndex senderType proposals = .ok allProposals)
    (hexternal : (groupProposals allProposals).external_init = [])
    (hremove : (groupProposals allProposals).remove ≠ [])
    (h : applyProposals cs state proposals committerLeafIndex pskSearch sentByClient
      newMemberLeafNode senderType currentTime = .ok result) :
    (groupProposals allProposals).reinit = [] := by
  obtain ⟨_, hall', -, h⟩ := applyProposals_eq_ok h
  obtain rfl := Except.ok.inj (hall.symm.trans hall')
  simp only [applyGroupedProposals, hexternal, List.length_nil, gt_iff_lt, lt_irrefl, if_false] at h
  cases hreinit : (groupProposals allProposals).reinit with
  | nil => rfl
  | cons reinit rest =>
    rw [hreinit] at h
    obtain ⟨c, hc, -⟩ := exists_removal hremove
    rw [(applyReinit_changes hreinit h).1] at hc
    cases hc

end

end WebcryptoMls
