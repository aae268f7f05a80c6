import WebcryptoMls.Joining
import WebcryptoMls.TreeExtension

/-!
# Custom credentials on the wire

A custom credential is created and encoded like any other, but `decodeCredential`
reads `basic` and `x509` only. What a decoder returns therefore carries none,
however deep the credential is nested, and no value that carries one comes back
from its encoding.
-/
namespace WebcryptoMls
open PrefixCode

def RESERVED_CREDENTIAL_TYPES : List ℤ := [1, 2]

def createCustomCredential (credentialId : ℤ) (data : Bytes) : Except MlsError Credential :=
  if RESERVED_CREDENTIAL_TYPES.contains credentialId then
    throw (usageError (s!"Credential type {credentialId} is reserved for the " ++
      "standard \"basic\" (1) and \"x509\" (2) credential types and " ++
      "cannot be used as a custom credential type"))
  else pure (.custom credentialId data)

def encodeExternalSender : Encoder ExternalSender := contramapEncoders [
  contramapEncoder encodeVarLenData ExternalSender.signaturePublicKey,
  contramapEncoder encodeCredential ExternalSender.credential]

def encodeExternalSenders : Encoder (List ExternalSender) := encodeVarLenType encodeExternalSender

/-! ## The credentials a value carries -/

def LeafNode.credentials (leaf : LeafNode) : List Credential := [leaf.credential]

def KeyPackage.credentials (kp : KeyPackage) : List Credential := kp.leafNode.leaf.credentials

def Proposal.credentials : Proposal → List Credential
  | .add kp => kp.credentials
  | .update l => l.leaf.credentials
  | _ => []

def ProposalOrRef.credentials : ProposalOrRef → List Credential
  | .proposal p => p.credentials
  | .reference _ => []

def Commit.credentials (commit : Commit) : List Credential :=
  commit.proposals.flatMap ProposalOrRef.credentials ++
    commit.path.toList.flatMap fun path => path.leafNode.leaf.credentials

def FramedContentInfo.credentials : FramedContentInfo → List Credential
  | .application _ => []
  | .proposal p => p.credentials
  | .commit c => c.credentials

/-- A Welcome and a private message carry bytes only, and so do the extensions of
a GroupInfo. -/
def MLSMessage.credentials (message : MLSMessage) : List Credential :=
  match message.content with
  | .mls_public_message publicMessage => publicMessage.content.info.credentials
  | .mls_key_package keyPackage => keyPackage.credentials
  | _ => []

def treeCredentials (tree : RatchetTree) : List Credential :=
  (treeLeaves tree).flatMap LeafNode.credentials

/-- One that `createCustomCredential` returns. -/
def Credential.IsCustom (c : Credential) : Prop :=
  ∃ credentialId data, createCustomCredential credentialId data = .ok c

/-- What a decoder finds carries no custom credential. -/
def ReadsStandard {α : Type} (dec : Decoder α) (credentials : α → List Credential) : Prop :=
  Yields dec fun v => ∀ c ∈ credentials v, ¬ c.IsCustom

/-! ## Nested decoders -/

section
variable {α : Type} {dec : Decoder α} {P : α → Prop}

theorem decodeVarLenTypeLoop_yields (h : Yields dec P) {total : Bytes} {fuel cursor : ℕ}
    {l : List α} (hl : decodeVarLenTypeLoop dec total fuel cursor = .ok (some l)) :
    ∀ a ∈ l, P a := by
  induction fuel generalizing cursor l with
  | zero =>
    simp only [decodeVarLenTypeLoop] at hl
    split_ifs at hl
    cases hl
    simp
  | succ fuel ih =>
    simp only [decodeVarLenTypeLoop] at hl
    split_ifs at hl
    · split at hl
      · cases hl
      · cases hl
      · rename_i value len hvalue
        split_ifs at hl
        · cases hl
        · split at hl
          · cases hl
          · cases hl
          · rename_i rest hrest
            cases hl
            intro a ha
            rcases List.mem_cons.mp ha with rfl | ha
            · exact h _ _ _ _ hvalue
            · exact ih hrest a ha
    · cases hl
      simp

theorem yields_varLenType (h : Yields dec P) :
    Yields (decodeVarLenType dec) fun l => ∀ a ∈ l, P a := by
  intro b offset l len hl
  simp only [decodeVarLenType] at hl
  split at hl
  · cases hl
  · cases hl
  · split at hl
    · cases hl
    · cases hl
    · rename_i hloop
      cases hl
      exact decodeVarLenTypeLoop_yields h hloop

theorem yields_optional (h : Yields dec P) :
    Yields (decodeOptional dec) fun o => ∀ a ∈ o, P a := by
  refine .bind fun presence => ?_
  split_ifs
  · exact h.map fun a ha b hb => by rwa [← Option.some.inj hb]
  · exact .pure (by simp)
  · exact .nothing

end

/-! ## What the decoders find -/

theorem isCustom_custom {c : Credential} (h : c.IsCustom) :
    ∃ codePoint data, c = .custom codePoint data := by
  obtain ⟨credentialId, data, h⟩ := h
  rw [createCustomCredential] at h
  split_ifs at h
  exact ⟨credentialId, data, (Except.ok.inj h).symm⟩

theorem readsStandard_credential : Yields decodeCredential fun c => ¬ c.IsCustom := by
  have hstandard : ∀ c : Credential, (∀ codePoint data, c ≠ .custom codePoint data) → ¬ c.IsCustom :=
    fun c hc h => by
      obtain ⟨codePoint, data, rfl⟩ := isCustom_custom h
      exact hc codePoint data rfl
  refine .bind fun credentialType => ?_
  cases credentialType with
  | basic => exact .bind fun identity => .pure (hstandard _ nofun)
  | x509 => exact .bind fun certificates => .pure (hstandard _ nofun)
  | other n => exact .nothing

theorem readsStandard_leafNode : ReadsStandard decodeLeafNode LeafNode.credentials := by
  have hdata : Yields decodeLeafNodeData fun data => ¬ data.credential.IsCustom :=
    .bind fun _ => .bind fun _ => .bind_of readsStandard_credential fun c hc =>
      .bind fun _ => .pure hc
  exact .bind_of hdata fun data hd => .bind fun _ => .bind fun _ => .bind fun _ =>
    .pure (by simpa [LeafNode.credentials] using hd)

theorem readsStandard_leafNodeKeyPackage :
    ReadsStandard decodeLeafNodeKeyPackage fun l => l.leaf.credentials :=
  readsStandard_leafNode.filterMap fun leaf l h hl => by
    obtain rfl := LeafNode.leaf_of_asKeyPackage hl
    exact h

theorem readsStandard_leafNodeUpdate :
    ReadsStandard decodeLeafNodeUpdate fun l => l.leaf.credentials :=
  readsStandard_leafNode.filterMap fun leaf l h hl => by
    obtain rfl := LeafNode.leaf_of_asUpdate hl
    exact h

theorem readsStandard_leafNodeCommit :
    ReadsStandard decodeLeafNodeCommit fun l => l.leaf.credentials :=
  readsStandard_leafNode.filterMap fun leaf l h hl => by
    obtain rfl := LeafNode.leaf_of_asCommit hl
    exact h

theorem readsStandard_keyPackage : ReadsStandard decodeKeyPackage KeyPackage.credentials := by
  have htbs : Yields decodeKeyPackageTBS fun tbs =>
      ∀ c ∈ tbs.leafNode.leaf.credentials, ¬ c.IsCustom :=
    .bind fun _ => .bind fun _ => .bind fun _ =>
      .bind_of readsStandard_leafNodeKeyPackage fun _ h => .bind fun _ => .pure h
  exact .bind_of htbs fun _ h => .bind fun _ => .pure h

theorem readsStandard_proposal : ReadsStandard decodeProposal Proposal.credentials := by
  refine .bind fun n => ?_
  rcases decodeDefaultProposalTypeName n with _ | proposalType
  · exact .bind fun _ => .pure nofun
  · cases proposalType with
    | add => exact readsStandard_keyPackage.map fun _ h => h
    | update => exact readsStandard_leafNodeUpdate.map fun _ h => h
    | remove => exact .bind fun _ => .pure nofun
    | psk => exact .bind fun _ => .pure nofun
    | reinit => exact .bind fun _ => .pure nofun
    | external_init => exact .bind fun _ => .pure nofun
    | group_context_extensions => exact .bind fun _ => .pure nofun

theorem readsStandard_proposalOrRef :
    ReadsStandard decodeProposalOrRef ProposalOrRef.credentials := by
  refine .bind fun proposalOrRefType => ?_
  cases proposalOrRefType with
  | proposal => exact readsStandard_proposal.map fun _ h => h
  | reference => exact .bind fun _ => .pure nofun

theorem readsStandard_updatePath :
    ReadsStandard decodeUpdatePath fun path => path.leafNode.leaf.credentials :=
  .bind_of readsStandard_leafNodeCommit fun _ h => .bind fun _ => .pure h

theorem readsStandard_commit : ReadsStandard decodeCommit Commit.credentials := by
  refine .bind_of (yields_varLenType readsStandard_proposalOrRef) fun proposals hproposals =>
    .bind_of (yields_optional readsStandard_updatePath) fun path hpath => .pure fun c hc => ?_
  rcases List.mem_append.mp hc with hc | hc
  · obtain ⟨p, hp, hc⟩ := List.mem_flatMap.mp hc
    exact hproposals p hp c hc
  · obtain ⟨p, hp, hc⟩ := List.mem_flatMap.mp hc
    exact hpath p (Option.mem_toList.mp hp) c hc

theorem readsStandard_framedContent :
    ReadsStandard decodeFramedContent fun content => content.info.credentials := by
  have hinfo : ReadsStandard decodeFramedContentInfo FramedContentInfo.credentials := by
    refine .bind fun contentType => ?_
    cases contentType with
    | application => exact .bind fun _ => .pure nofun
    | proposal => exact readsStandard_proposal.map fun _ h => h
    | commit => exact readsStandard_commit.map fun _ h => h
  exact .bind fun _ => .bind fun _ => .bind fun _ => .bind fun _ => .bind_of hinfo fun _ h => .pure h

theorem readsStandard_publicMessage :
    ReadsStandard decodePublicMessage fun message => message.content.info.credentials :=
  .bind_of readsStandard_framedContent fun _ h => .bind fun _ => .bind fun _ => .pure h

theorem readsStandard_mlsMessage : ReadsStandard decodeMlsMessage MLSMessage.credentials := by
  have hloose : ReadsStandard decodeMlsMessageLoose MLSMessage.credentials := by
    refine .bind fun version => .bind_of (Q := fun content => ∀ c ∈ MLSMessage.credentials
      ⟨version, content⟩, ¬ c.IsCustom) (.bind fun wireformat => ?_) fun content h => .pure h
    cases wireformat with
    | mls_public_message => exact readsStandard_publicMessage.map fun _ h => h
    | mls_welcome => exact .bind fun _ => .pure nofun
    | mls_private_message => exact .bind fun _ => .pure nofun
    | mls_group_info => exact .bind fun _ => .pure nofun
    | mls_key_package => exact readsStandard_keyPackage.map fun _ h => h
  intro b offset message len h
  simp only [decodeMlsMessage] at h
  split_ifs at h
  · cases h
  · obtain ⟨result, hresult, h⟩ := bind_eq_ok.mp h
    split at h
    · cases h
    · split_ifs at h
      · cases h
      · cases h
        exact hloose b offset _ _ hresult

theorem readsStandard_externalSenders : ReadsStandard decodeExternalSenders
    fun senders => senders.map ExternalSender.credential := by
  have hsender : Yields decodeExternalSender fun sender => ¬ sender.credential.IsCustom :=
    .bind fun _ => .bind_of readsStandard_credential fun _ h => .pure h
  intro b offset senders len h c hc
  obtain ⟨sender, hmem, rfl⟩ := List.mem_map.mp hc
  exact yields_varLenType hsender b offset senders len h sender hmem

theorem treeLeaves_append (t t' : RatchetTree) :
    treeLeaves (t ++ t') = treeLeaves t ++ treeLeaves t' := List.filterMap_append ..

theorem treeLeaves_replicate_none (m : ℕ) : treeLeaves (List.replicate m none) = [] := by
  simp [treeLeaves]

theorem treeLeaves_extendRatchetTree {nodes t : RatchetTree}
    (h : extendRatchetTree nodes = .ok t) : treeLeaves t = treeLeaves nodes := by
  simp only [extendRatchetTree] at h
  split_ifs at h
  · cases h
  · obtain ⟨s, -, h⟩ := bind_eq_ok.mp h
    obtain rfl := Except.ok.inj h
    rw [treeLeaves_append, treeLeaves_replicate_none, List.append_nil]

theorem readsStandard_ratchetTree : ReadsStandard decodeRatchetTree treeCredentials := by
  have hnode : Yields decodeNode fun n => ∀ leaf, n = .leaf leaf → ∀ c ∈ leaf.credentials,
      ¬ c.IsCustom := by
    refine .bind fun nodeType => ?_
    cases nodeType with
    | parent => exact .bind fun _ => .pure nofun
    | leaf =>
      refine readsStandard_leafNode.map fun l h leaf heq => ?_
      obtain rfl := Node.leaf.inj heq
      exact h
  have hnodes := yields_varLenType (yields_optional hnode)
  intro b offset t len h c hc
  unfold decodeRatchetTree at h
  split at h
  · cases h
  · cases h
  · rename_i nodes len' hdecoded
    obtain ⟨tree, htree, h⟩ := bind_eq_ok.mp h
    unfold treeOfNodes at htree
    split_ifs at htree
    · cases htree
      cases h
    · obtain ⟨t', ht', htree⟩ := bind_eq_ok.mp htree
      split_ifs at htree
      · cases htree
        cases h
        rw [treeCredentials, treeLeaves_extendRatchetTree ht'] at hc
        obtain ⟨leaf, hleaf, hc⟩ := List.mem_flatMap.mp hc
        obtain ⟨o, ho, hl⟩ := List.mem_filterMap.mp hleaf
        rcases o with _ | _ | l
        · cases hl
        · cases hl
        · obtain rfl := Option.some.inj hl
          exact hnodes b offset nodes _ hdecoded _ ho _ rfl l rfl c hc
      · cases htree
        cases h

/-! ## None comes back -/

/-- No value that carries the credential comes back from the bytes it is encoded to. -/
def NeverComesBack {α : Type} (credential : Credential) (enc : Encoder α) (dec : Decoder α)
    (credentials : α → List Credential) : Prop :=
  ∀ v, credential ∈ credentials v → ∀ b, enc v = .ok b → ∀ len, dec b 0 ≠ .ok (some (v, len))

theorem ReadsStandard.neverComesBack {α : Type} {dec : Decoder α} {credential : Credential}
    {credentials : α → List Credential} (h : ReadsStandard dec credentials)
    (hcustom : credential.IsCustom) (enc : Encoder α) :
    NeverComesBack credential enc dec credentials := by
  intro v hv b _ len hdecoded
  exact h b 0 v len hdecoded credential hv hcustom

/-- A credential `createCustomCredential` returns is lost alone and in every structure that
carries it. -/
theorem custom_credentials_lost {credentialId : ℤ} {data : Bytes} {credential : Credential}
    (created : createCustomCredential credentialId data = .ok credential) :
    NeverComesBack credential encodeCredential decodeCredential (fun c => [c]) ∧
    NeverComesBack credential encodeKeyPackage decodeKeyPackage KeyPackage.credentials ∧
    NeverComesBack credential encodeLeafNode decodeLeafNode LeafNode.credentials ∧
    NeverComesBack credential encodeProposal decodeProposal Proposal.credentials ∧
    NeverComesBack credential encodeCommit decodeCommit Commit.credentials ∧
    NeverComesBack credential encodeExternalSenders decodeExternalSenders
      (fun senders => senders.map ExternalSender.credential) ∧
    NeverComesBack credential encodeRatchetTree decodeRatchetTree treeCredentials ∧
    NeverComesBack credential encodeMlsMessage decodeMlsMessage MLSMessage.credentials := by
  have hcustom : credential.IsCustom := ⟨credentialId, data, created⟩
  refine ⟨ReadsStandard.neverComesBack ?_ hcustom _, readsStandard_keyPackage.neverComesBack hcustom _,
    readsStandard_leafNode.neverComesBack hcustom _, readsStandard_proposal.neverComesBack hcustom _,
    readsStandard_commit.neverComesBack hcustom _,
    readsStandard_externalSenders.neverComesBack hcustom _,
    readsStandard_ratchetTree.neverComesBack hcustom _,
    readsStandard_mlsMessage.neverComesBack hcustom _⟩
  intro b offset c len h c' hc'
  obtain rfl := List.mem_singleton.mp hc'
  exact readsStandard_credential b offset c' len h

theorem custom_credentials_lost_five :
    NeverComesBack (.custom 5 [1, 2]) encodeCredential decodeCredential (fun c => [c]) ∧
    NeverComesBack (.custom 5 [1, 2]) encodeKeyPackage decodeKeyPackage KeyPackage.credentials ∧
    NeverComesBack (.custom 5 [1, 2]) encodeMlsMessage decodeMlsMessage MLSMessage.credentials :=
  have lost := @custom_credentials_lost 5 [1, 2] _ rfl
  ⟨lost.1, lost.2.1, lost.2.2.2.2.2.2.2⟩

/-- The key package of a client with a custom credential is encoded and not decoded. -/
theorem customKeyPackage_lost : ∃ credential keyPackage b,
    createCustomCredential 5 [1, 2] = .ok credential ∧
    keyPackage.leafNode.leaf.credential = credential ∧ encodeKeyPackage keyPackage = .ok b ∧
    decodeKeyPackage b 0 = .ok none := by
  refine ⟨_, { version := .mls10
               cipherSuite := .MLS_128_DHKEMX25519_AES128GCM_SHA256_Ed25519
               initKey := [1]
               leafNode := { leaf := { (default : LeafNode) with credential := .custom 5 [1, 2] }
                             lifetime := ⟨0, 0⟩
                             source := rfl }
               extensions := []
               signature := [] }, _, rfl, rfl, rfl, ?_⟩
  decide +kernel

end WebcryptoMls
