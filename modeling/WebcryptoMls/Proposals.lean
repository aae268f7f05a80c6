import WebcryptoMls.LeafNodeDecoders
import WebcryptoMls.UpdatePath

/-!
# Key packages, proposals and commits

The types a commit is made of, their encoders and decoders. Where a position
requires a leaf of one source, the type of the field says so.
-/
namespace WebcryptoMls
open PrefixCode

/-! ## Key packages -/

structure KeyPackage where
  version : ProtocolVersionName
  cipherSuite : CiphersuiteName
  initKey : Bytes
  leafNode : LeafNodeKeyPackage
  extensions : List Extension
  signature : Bytes
  deriving Repr, DecidableEq

/-- The fields the signature covers. -/
structure KeyPackageTBS where
  version : ProtocolVersionName
  cipherSuite : CiphersuiteName
  initKey : Bytes
  leafNode : LeafNodeKeyPackage
  extensions : List Extension

def KeyPackage.tbs (keyPackage : KeyPackage) : KeyPackageTBS where
  version := keyPackage.version
  cipherSuite := keyPackage.cipherSuite
  initKey := keyPackage.initKey
  leafNode := keyPackage.leafNode
  extensions := keyPackage.extensions

def encodeKeyPackageTBS : Encoder KeyPackageTBS := contramapEncoders [
  contramapEncoder encodeProtocolVersion KeyPackageTBS.version,
  contramapEncoder encodeCiphersuite KeyPackageTBS.cipherSuite,
  contramapEncoder encodeVarLenData KeyPackageTBS.initKey,
  contramapEncoder (contramapEncoder encodeLeafNode LeafNodeKeyPackage.leaf) KeyPackageTBS.leafNode,
  contramapEncoder (encodeVarLenType encodeExtension) KeyPackageTBS.extensions]

def decodeKeyPackageTBS : Decoder KeyPackageTBS := do
  let version ← decodeProtocolVersion
  let cipherSuite ← decodeCiphersuite
  let initKey ← decodeVarLenData
  let leafNode ← decodeLeafNodeKeyPackage
  let extensions ← decodeVarLenType decodeExtension
  pure {
    version := version
    cipherSuite := cipherSuite
    initKey := initKey
    leafNode := leafNode
    extensions := extensions }

def encodeKeyPackage : Encoder KeyPackage := contramapEncoders [
  contramapEncoder encodeKeyPackageTBS KeyPackage.tbs,
  contramapEncoder encodeVarLenData KeyPackage.signature]

def decodeKeyPackage : Decoder KeyPackage := do
  let tbs ← decodeKeyPackageTBS
  let signature ← decodeVarLenData
  pure {
    version := tbs.version
    cipherSuite := tbs.cipherSuite
    initKey := tbs.initKey
    leafNode := tbs.leafNode
    extensions := tbs.extensions
    signature := signature }

/-! ## Pre-shared keys -/

inductive PSKTypeName where
  | external
  | resumption
  deriving Repr, DecidableEq

def pskTypes : PSKTypeName → ℤ
  | .external => 1
  | .resumption => 2

def encodePskType : Encoder PSKTypeName := contramapEncoder encodeUint8 pskTypes

def decodePskType : Decoder PSKTypeName :=
  mapDecoderOption decodeUint8 (enumNumberToKey [.external, .resumption] pskTypes)

inductive ResumptionPSKUsageName where
  | application
  | reinit
  | branch
  deriving Repr, DecidableEq

def resumptionPSKUsages : ResumptionPSKUsageName → ℤ
  | .application => 1
  | .reinit => 2
  | .branch => 3

def encodeResumptionPSKUsage : Encoder ResumptionPSKUsageName :=
  contramapEncoder encodeUint8 resumptionPSKUsages

def decodeResumptionPSKUsage : Decoder ResumptionPSKUsageName :=
  mapDecoderOption decodeUint8 (enumNumberToKey [.application, .reinit, .branch] resumptionPSKUsages)

structure PSKInfoResumption where
  usage : ResumptionPSKUsageName
  pskGroupId : Bytes
  pskEpoch : ℤ
  deriving Repr, DecidableEq

inductive PSKInfo where
  | external (pskId : Bytes)
  | resumption (info : PSKInfoResumption)
  deriving Repr, DecidableEq

structure PreSharedKeyID where
  info : PSKInfo
  pskNonce : Bytes
  deriving Repr, DecidableEq

/-- The fields of `encodePskInfoResumption` behind its type. -/
def encodeResumption : Encoder PSKInfoResumption := contramapEncoders [
  contramapEncoder encodeResumptionPSKUsage PSKInfoResumption.usage,
  contramapEncoder encodeVarLenData PSKInfoResumption.pskGroupId,
  contramapEncoder encodeUint64 PSKInfoResumption.pskEpoch]

def encodePskInfoExternal : Encoder Bytes := contramapEncoders [
  contramapEncoder encodePskType fun _ => .external,
  encodeVarLenData]

def encodePskInfoResumption : Encoder PSKInfoResumption := contramapEncoders [
  contramapEncoder encodePskType fun _ => .resumption,
  encodeResumption]

def decodePskInfoResumption : Decoder PSKInfoResumption := do
  let usage ← decodeResumptionPSKUsage
  let pskGroupId ← decodeVarLenData
  let pskEpoch ← decodeUint64
  pure { usage := usage, pskGroupId := pskGroupId, pskEpoch := pskEpoch }

def encodePskInfo : Encoder PSKInfo
  | .external pskId => encodePskInfoExternal pskId
  | .resumption info => encodePskInfoResumption info

def decodePskInfo : Decoder PSKInfo :=
  flatMapDecoder decodePskType fun psktype =>
    match psktype with
    | .external => mapDecoder decodeVarLenData .external
    | .resumption => mapDecoder decodePskInfoResumption .resumption

def encodePskId : Encoder PreSharedKeyID := contramapEncoders [
  contramapEncoder encodePskInfo PreSharedKeyID.info,
  contramapEncoder encodeVarLenData PreSharedKeyID.pskNonce]

def decodePskId : Decoder PreSharedKeyID := do
  let info ← decodePskInfo
  let pskNonce ← decodeVarLenData
  pure { info := info, pskNonce := pskNonce }

/-! ## Proposals -/

structure Reinit where
  groupId : Bytes
  version : ProtocolVersionName
  cipherSuite : CiphersuiteName
  extensions : List Extension
  deriving Repr, DecidableEq

def encodeReinit : Encoder Reinit := contramapEncoders [
  contramapEncoder encodeVarLenData Reinit.groupId,
  contramapEncoder encodeProtocolVersion Reinit.version,
  contramapEncoder encodeCiphersuite Reinit.cipherSuite,
  contramapEncoder (encodeVarLenType encodeExtension) Reinit.extensions]

def decodeReinit : Decoder Reinit := do
  let groupId ← decodeVarLenData
  let version ← decodeProtocolVersion
  let cipherSuite ← decodeCiphersuite
  let extensions ← decodeVarLenType decodeExtension
  pure { groupId := groupId, version := version, cipherSuite := cipherSuite, extensions := extensions }

/-- A proposal with its content. A custom proposal keeps its type's number. -/
inductive Proposal where
  | add (keyPackage : KeyPackage)
  | update (leafNode : LeafNodeUpdate)
  | remove (removed : ℕ)
  | psk (preSharedKeyId : PreSharedKeyID)
  | reinit (reinit : Reinit)
  | external_init (kemOutput : Bytes)
  | group_context_extensions (extensions : List Extension)
  | custom (proposalType : ℤ) (proposalData : Bytes)
  deriving Repr, DecidableEq

inductive DefaultProposalTypeName where
  | add
  | update
  | remove
  | psk
  | reinit
  | external_init
  | group_context_extensions
  deriving Repr, DecidableEq

def defaultProposalTypes : DefaultProposalTypeName → ℤ
  | .add => 1
  | .update => 2
  | .remove => 3
  | .psk => 4
  | .reinit => 5
  | .external_init => 6
  | .group_context_extensions => 7

def encodeDefaultProposalType : Encoder DefaultProposalTypeName :=
  contramapEncoder encodeUint16 defaultProposalTypes

/-- A default proposal: its type, then its content. -/
def encodeProposalOf {α : Type} (proposalType : DefaultProposalTypeName) (enc : Encoder α) :
    Encoder α := contramapEncoders [
  contramapEncoder encodeDefaultProposalType fun _ => proposalType,
  enc]

def encodeProposalAdd : Encoder KeyPackage := encodeProposalOf .add encodeKeyPackage

def encodeProposalUpdate : Encoder LeafNodeUpdate :=
  encodeProposalOf .update (contramapEncoder encodeLeafNode LeafNodeUpdate.leaf)

def encodeProposalRemove : Encoder ℕ := encodeProposalOf .remove fun n : ℕ => encodeUint32 n

def encodeProposalPSK : Encoder PreSharedKeyID := encodeProposalOf .psk encodePskId

def encodeProposalReinit : Encoder Reinit := encodeProposalOf .reinit encodeReinit

def encodeProposalExternalInit : Encoder Bytes := encodeProposalOf .external_init encodeVarLenData

def encodeProposalGroupContextExtensions : Encoder (List Extension) :=
  encodeProposalOf .group_context_extensions (encodeVarLenType encodeExtension)

def encodeProposalCustom (proposalType : ℤ) : Encoder Bytes := contramapEncoders [
  contramapEncoder encodeUint16 fun _ => proposalType,
  encodeVarLenData]

def encodeProposal : Encoder Proposal
  | .add keyPackage => encodeProposalAdd keyPackage
  | .update leafNode => encodeProposalUpdate leafNode
  | .remove removed => encodeProposalRemove removed
  | .psk preSharedKeyId => encodeProposalPSK preSharedKeyId
  | .reinit reinit => encodeProposalReinit reinit
  | .external_init kemOutput => encodeProposalExternalInit kemOutput
  | .group_context_extensions extensions => encodeProposalGroupContextExtensions extensions
  | .custom proposalType proposalData => encodeProposalCustom proposalType proposalData

/-- `enumNumberToKey(defaultProposalTypes)` -/
def decodeDefaultProposalTypeName : ℤ → Option DefaultProposalTypeName :=
  enumNumberToKey [.add, .update, .remove, .psk, .reinit, .external_init, .group_context_extensions]
    defaultProposalTypes

/-- What follows a proposal's type. -/
def decodeProposalContent (n : ℤ) : Option DefaultProposalTypeName → Decoder Proposal
  | some .add => mapDecoder decodeKeyPackage .add
  | some .update => mapDecoder decodeLeafNodeUpdate .update
  | some .remove => mapDecoder (mapDecoder decodeUint32 Int.toNat) .remove
  | some .psk => mapDecoder decodePskId .psk
  | some .reinit => mapDecoder decodeReinit .reinit
  | some .external_init => mapDecoder decodeVarLenData .external_init
  | some .group_context_extensions =>
    mapDecoder (decodeVarLenType decodeExtension) .group_context_extensions
  | none => mapDecoder decodeVarLenData (.custom n)

def decodeProposal : Decoder Proposal :=
  flatMapDecoder decodeUint16 fun n => decodeProposalContent n (decodeDefaultProposalTypeName n)

inductive ProposalOrRefTypeName where
  | proposal
  | reference
  deriving Repr, DecidableEq

def proposalOrRefTypes : ProposalOrRefTypeName → ℤ
  | .proposal => 1
  | .reference => 2

def encodeProposalOrRefType : Encoder ProposalOrRefTypeName :=
  contramapEncoder encodeUint8 proposalOrRefTypes

def decodeProposalOrRefType : Decoder ProposalOrRefTypeName :=
  mapDecoderOption decodeUint8 (enumNumberToKey [.proposal, .reference] proposalOrRefTypes)

inductive ProposalOrRef where
  | proposal (proposal : Proposal)
  | reference (reference : Bytes)
  deriving Repr, DecidableEq

def encodeProposalOrRefProposal : Encoder Proposal := contramapEncoders [
  contramapEncoder encodeProposalOrRefType fun _ => .proposal,
  encodeProposal]

def encodeProposalOrRefProposalRef : Encoder Bytes := contramapEncoders [
  contramapEncoder encodeProposalOrRefType fun _ => .reference,
  encodeVarLenData]

def encodeProposalOrRef : Encoder ProposalOrRef
  | .proposal proposal => encodeProposalOrRefProposal proposal
  | .reference reference => encodeProposalOrRefProposalRef reference

def decodeProposalOrRef : Decoder ProposalOrRef :=
  flatMapDecoder decodeProposalOrRefType fun proposalOrRefType =>
    match proposalOrRefType with
    | .proposal => mapDecoder decodeProposal .proposal
    | .reference => mapDecoder decodeVarLenData .reference

/-! ## Commits -/

def encodeHpkeCiphertext : Encoder HPKECiphertext := contramapEncoders [
  contramapEncoder encodeVarLenData HPKECiphertext.kemOutput,
  contramapEncoder encodeVarLenData HPKECiphertext.ciphertext]

def decodeHpkeCiphertext : Decoder HPKECiphertext := do
  let kemOutput ← decodeVarLenData
  let ciphertext ← decodeVarLenData
  pure { kemOutput := kemOutput, ciphertext := ciphertext }

def encodeUpdatePathNode : Encoder UpdatePathNode := contramapEncoders [
  contramapEncoder encodeVarLenData UpdatePathNode.hpkePublicKey,
  contramapEncoder (encodeVarLenType encodeHpkeCiphertext) UpdatePathNode.encryptedPathSecret]

def decodeUpdatePathNode : Decoder UpdatePathNode := do
  let hpkePublicKey ← decodeVarLenData
  let encryptedPathSecret ← decodeVarLenType decodeHpkeCiphertext
  pure { hpkePublicKey := hpkePublicKey, encryptedPathSecret := encryptedPathSecret }

def encodeUpdatePath : Encoder UpdatePath := contramapEncoders [
  contramapEncoder (contramapEncoder encodeLeafNode LeafNodeCommit.leaf) UpdatePath.leafNode,
  contramapEncoder (encodeVarLenType encodeUpdatePathNode) UpdatePath.nodes]

def decodeUpdatePath : Decoder UpdatePath := do
  let leafNode ← decodeLeafNodeCommit
  let nodes ← decodeVarLenType decodeUpdatePathNode
  pure { leafNode := leafNode, nodes := nodes }

structure Commit where
  proposals : List ProposalOrRef
  path : Option UpdatePath
  deriving Repr, DecidableEq

def encodeCommit : Encoder Commit := contramapEncoders [
  contramapEncoder (encodeVarLenType encodeProposalOrRef) Commit.proposals,
  contramapEncoder (encodeOptional encodeUpdatePath) Commit.path]

def decodeCommit : Decoder Commit := do
  let proposals ← decodeVarLenType decodeProposalOrRef
  let path ← decodeOptional decodeUpdatePath
  pure { proposals := proposals, path := path }

/-! ## Values a decoder can return -/

structure KeyPackage.WellFormed (keyPackage : KeyPackage) : Prop where
  cipherSuite : keyPackage.cipherSuite.WellFormed
  leafNode : keyPackage.leafNode.leaf.WellFormed
  extensions : ∀ e ∈ keyPackage.extensions, e.WellFormed

def PSKInfo.WellFormed : PSKInfo → Prop
  | .external _ => True
  | .resumption info => IsUint64 info.pskEpoch

def PreSharedKeyID.WellFormed (id : PreSharedKeyID) : Prop := id.info.WellFormed

structure Reinit.WellFormed (r : Reinit) : Prop where
  cipherSuite : r.cipherSuite.WellFormed
  extensions : ∀ e ∈ r.extensions, e.WellFormed

/-- A custom type is outside the default code points. -/
def Proposal.WellFormed : Proposal → Prop
  | .add keyPackage => keyPackage.WellFormed
  | .update leafNode => leafNode.leaf.WellFormed
  | .remove _ => True
  | .psk preSharedKeyId => preSharedKeyId.WellFormed
  | .reinit r => r.WellFormed
  | .external_init _ => True
  | .group_context_extensions extensions => ∀ e ∈ extensions, e.WellFormed
  | .custom proposalType _ => ∀ name, defaultProposalTypes name ≠ proposalType

def ProposalOrRef.WellFormed : ProposalOrRef → Prop
  | .proposal p => p.WellFormed
  | .reference _ => True

structure Commit.WellFormed (commit : Commit) : Prop where
  proposals : ∀ p ∈ commit.proposals, p.WellFormed
  path : ∀ path, commit.path = some path → path.leafNode.leaf.WellFormed

/-! ## Canonical decoders -/

theorem canonical_keyPackageTBS : Canonical encodeKeyPackageTBS decodeKeyPackageTBS :=
  .field canonical_protocolVersion
    (fun _ => .bind fun _ => .bind fun _ => .bind fun _ => .bind fun _ => .pure rfl) fun _ =>
  .field canonical_ciphersuite
    (fun _ => .bind fun _ => .bind fun _ => .bind fun _ => .pure rfl) fun _ =>
  .field canonical_varLenData (fun _ => .bind fun _ => .bind fun _ => .pure rfl) fun _ =>
  .field canonical_leafNodeKeyPackage (fun _ => .bind fun _ => .pure rfl) fun _ =>
  .field canonical_extensions (fun _ => .pure rfl) fun _ =>
  canonical_nil

theorem canonical_keyPackage : Canonical encodeKeyPackage decodeKeyPackage :=
  .field canonical_keyPackageTBS (fun _ => .bind fun _ => .pure rfl) fun _ =>
  .field canonical_varLenData (fun _ => .pure rfl) fun _ =>
  canonical_nil

theorem canonical_pskType : Canonical encodePskType decodePskType := canonical_enum

theorem canonical_pskInfoResumption : Canonical encodeResumption decodePskInfoResumption :=
  .field (canonical_enum (t := resumptionPSKUsages))
    (fun _ => .bind fun _ => .bind fun _ => .pure rfl) fun _ =>
  .field canonical_varLenData (fun _ => .bind fun _ => .pure rfl) fun _ =>
  .field canonical_uint64 (fun _ => .pure rfl) fun _ =>
  canonical_nil

theorem canonical_pskInfo : Canonical encodePskInfo decodePskInfo := by
  apply canonical_pskType.tagged
  intro psktype
  cases psktype with
  | external => exact canonical_varLenData.map fun _ _ hy _ hx => concat_pair hx hy
  | resumption => exact canonical_pskInfoResumption.map fun _ _ hy _ hx => concat_pair hx hy

theorem canonical_pskId : Canonical encodePskId decodePskId :=
  .field canonical_pskInfo (fun _ => .bind fun _ => .pure rfl) fun _ =>
  .field canonical_varLenData (fun _ => .pure rfl) fun _ =>
  canonical_nil

theorem canonical_reinit : Canonical encodeReinit decodeReinit :=
  .field canonical_varLenData
    (fun _ => .bind fun _ => .bind fun _ => .bind fun _ => .pure rfl) fun _ =>
  .field canonical_protocolVersion (fun _ => .bind fun _ => .bind fun _ => .pure rfl) fun _ =>
  .field canonical_ciphersuite (fun _ => .bind fun _ => .pure rfl) fun _ =>
  .field canonical_extensions (fun _ => .pure rfl) fun _ =>
  canonical_nil

/-- What a default proposal's decoder takes behind the type's number. -/
theorem parses_proposalOf {α : Type} {enc : Encoder α} {dec : Decoder α} {f : α → Proposal} {n : ℤ}
    {name : DefaultProposalTypeName} (hn : defaultProposalTypes name = n) (hc : Canonical enc dec)
    (he : ∀ a, encodeProposal (f a) = encodeProposalOf name enc a) :
    Parses (mapDecoder dec f) fun p y => ∀ x, encodeUint16 n = .ok x →
      encodeProposal p = .ok (x ++ y) := by
  apply hc.map
  intro a y hy x hx
  rw [he]
  have htag : encodeDefaultProposalType name = .ok x := by
    rw [← hx, ← hn]
    rfl
  exact concat_pair htag hy

theorem canonical_proposal : Canonical encodeProposal decodeProposal := by
  apply (canonical_uint 2).tagged
  intro n
  cases hname : decodeDefaultProposalTypeName n with
  | none => exact canonical_varLenData.map fun _ _ hy _ hx => concat_pair hx hy
  | some name =>
    have hn := enumNumberToKey_eq_some hname
    cases name with
    | add => exact parses_proposalOf hn canonical_keyPackage fun _ => rfl
    | update => exact parses_proposalOf hn canonical_leafNodeUpdate fun _ => rfl
    | remove => exact parses_proposalOf hn (canonical_uint_toNat 4) fun _ => rfl
    | psk => exact parses_proposalOf hn canonical_pskId fun _ => rfl
    | reinit => exact parses_proposalOf hn canonical_reinit fun _ => rfl
    | external_init => exact parses_proposalOf hn canonical_varLenData fun _ => rfl
    | group_context_extensions => exact parses_proposalOf hn canonical_extensions fun _ => rfl

theorem canonical_proposalOrRef : Canonical encodeProposalOrRef decodeProposalOrRef := by
  apply Canonical.tagged (canonical_enum (t := proposalOrRefTypes))
  intro proposalOrRefType
  cases proposalOrRefType with
  | proposal => exact canonical_proposal.map fun _ _ hy _ hx => concat_pair hx hy
  | reference => exact canonical_varLenData.map fun _ _ hy _ hx => concat_pair hx hy

theorem canonical_hpkeCiphertext : Canonical encodeHpkeCiphertext decodeHpkeCiphertext :=
  .field canonical_varLenData (fun _ => .bind fun _ => .pure rfl) fun _ =>
  .field canonical_varLenData (fun _ => .pure rfl) fun _ =>
  canonical_nil

theorem canonical_updatePathNode : Canonical encodeUpdatePathNode decodeUpdatePathNode :=
  .field canonical_varLenData (fun _ => .bind fun _ => .pure rfl) fun _ =>
  .field (canonical_varLenType canonical_hpkeCiphertext) (fun _ => .pure rfl) fun _ =>
  canonical_nil

theorem canonical_updatePath : Canonical encodeUpdatePath decodeUpdatePath :=
  .field canonical_leafNodeCommit (fun _ => .bind fun _ => .pure rfl) fun _ =>
  .field (canonical_varLenType canonical_updatePathNode) (fun _ => .pure rfl) fun _ =>
  canonical_nil

theorem canonical_commit : Canonical encodeCommit decodeCommit :=
  .field (canonical_varLenType canonical_proposalOrRef) (fun _ => .bind fun _ => .pure rfl) fun _ =>
  .field (canonical_optional canonical_updatePath) (fun _ => .pure rfl) fun _ =>
  canonical_nil

/-! ## Recovered values -/

theorem recovers_keyPackage {keyPackage : KeyPackage} (h : keyPackage.WellFormed) :
    Recovers decodeKeyPackage (encodeKeyPackage keyPackage) keyPackage :=
  .field (.field (recovers_protocolVersion _) <|
    .field (recovers_ciphersuite h.cipherSuite) <|
    .field (recovers_varLenData _) <|
    .field (recovers_leafNodeKeyPackage h.leafNode) <|
    .field (recovers_extensions h.extensions) recovers_nil) <|
  .field (recovers_varLenData _) recovers_nil

theorem recovers_pskInfo {info : PSKInfo} (h : info.WellFormed) :
    Recovers decodePskInfo (encodePskInfo info) info := by
  have htype : ∀ t, Recovers decodePskType (encodePskType t) t := fun t =>
    recovers_enum (by cases t <;> rfl)
  have husage : ∀ u, Recovers decodeResumptionPSKUsage (encodeResumptionPSKUsage u) u := fun u =>
    recovers_enum (by cases u <;> rfl)
  cases info with
  | external pskId =>
    exact (htype .external).bind (recovers_varLenData pskId).map fun _ hz => concat_pair_eq_ok hz
  | resumption info =>
    have hinfo : Recovers decodePskInfoResumption (encodeResumption info) info :=
      .field (husage _) <|
      .field (recovers_varLenData _) <|
      .field (recovers_uint64 h.1 h.2) recovers_nil
    exact (htype .resumption).bind hinfo.map fun _ hz => concat_pair_eq_ok hz

theorem recovers_pskId {id : PreSharedKeyID} (h : id.WellFormed) :
    Recovers decodePskId (encodePskId id) id :=
  .field (recovers_pskInfo h) <|
  .field (recovers_varLenData _) recovers_nil

theorem recovers_reinit {r : Reinit} (h : r.WellFormed) :
    Recovers decodeReinit (encodeReinit r) r :=
  .field (recovers_varLenData _) <|
  .field (recovers_protocolVersion _) <|
  .field (recovers_ciphersuite h.cipherSuite) <|
  .field (recovers_extensions h.extensions) recovers_nil

theorem recovers_proposalOf {α : Type} {enc : Encoder α} {dec : Decoder α} {f : α → Proposal} {a : α}
    {name : DefaultProposalTypeName} (hr : Recovers dec (enc a) a)
    (hd : decodeProposalContent (defaultProposalTypes name) (some name) = mapDecoder dec f) :
    Recovers decodeProposal (encodeProposalOf name enc a) (f a) := by
  refine (recovers_uint 2 (defaultProposalTypes name)).bind (t := enc a) ?_
    fun _ hz => concat_pair_eq_ok hz
  have hname : decodeDefaultProposalTypeName (defaultProposalTypes name) = some name := by
    cases name <;> rfl
  rw [hname, hd]
  exact hr.map

theorem recovers_proposal {p : Proposal} (h : p.WellFormed) :
    Recovers decodeProposal (encodeProposal p) p := by
  cases p with
  | add keyPackage => exact recovers_proposalOf (recovers_keyPackage h) rfl
  | update leafNode => exact recovers_proposalOf (recovers_leafNodeUpdate h) rfl
  | remove removed => exact recovers_proposalOf (recovers_uint_toNat 4 removed) rfl
  | psk preSharedKeyId => exact recovers_proposalOf (recovers_pskId h) rfl
  | reinit reinit => exact recovers_proposalOf (recovers_reinit h) rfl
  | external_init kemOutput => exact recovers_proposalOf (recovers_varLenData kemOutput) rfl
  | group_context_extensions extensions => exact recovers_proposalOf (recovers_extensions h) rfl
  | custom proposalType proposalData =>
    refine (recovers_uint 2 proposalType).bind (t := encodeVarLenData proposalData) ?_
      fun _ hz => concat_pair_eq_ok hz
    have hnone : decodeDefaultProposalTypeName proposalType = none := by
      rw [decodeDefaultProposalTypeName, enumNumberToKey, List.find?_eq_none]
      intro name _
      simpa using h name
    rw [hnone]
    exact (recovers_varLenData proposalData).map

theorem recovers_proposalOrRef {p : ProposalOrRef} (h : p.WellFormed) :
    Recovers decodeProposalOrRef (encodeProposalOrRef p) p := by
  have htype : ∀ t, Recovers decodeProposalOrRefType (encodeProposalOrRefType t) t := fun t =>
    recovers_enum (by cases t <;> rfl)
  cases p with
  | proposal proposal =>
    exact (htype .proposal).bind (recovers_proposal h).map fun _ hz => concat_pair_eq_ok hz
  | reference reference =>
    exact (htype .reference).bind (recovers_varLenData reference).map
      fun _ hz => concat_pair_eq_ok hz

theorem nonEmpty_proposalOrRef : NonEmpty encodeProposalOrRef := by
  intro p
  have htag : NonEmpty encodeProposalOrRefType := (nonEmpty_uint (by decide)).comp _
  cases p with
  | proposal proposal => exact nonEmpty_cons (htag.comp _) proposal
  | reference reference => exact nonEmpty_cons (htag.comp _) reference

theorem recovers_updatePathNode (node : UpdatePathNode) :
    Recovers decodeUpdatePathNode (encodeUpdatePathNode node) node :=
  .field (recovers_varLenData _) <|
  .field (recovers_varLenType (nonEmpty_cons (nonEmpty_varLenData.comp _)) fun _ _ =>
    .field (recovers_varLenData _) <| .field (recovers_varLenData _) recovers_nil) recovers_nil

theorem recovers_updatePath {path : UpdatePath} (h : path.leafNode.leaf.WellFormed) :
    Recovers decodeUpdatePath (encodeUpdatePath path) path :=
  .field (recovers_leafNodeCommit h) <|
  .field (recovers_varLenType (nonEmpty_cons (nonEmpty_varLenData.comp _))
    fun node _ => recovers_updatePathNode node) recovers_nil

theorem recovers_commit {commit : Commit} (h : commit.WellFormed) :
    Recovers decodeCommit (encodeCommit commit) commit :=
  .field (recovers_varLenType nonEmpty_proposalOrRef
    fun p hp => recovers_proposalOrRef (h.proposals p hp)) <|
  .field (recovers_optional fun path hpath => recovers_updatePath (h.path path hpath)) recovers_nil

end WebcryptoMls
