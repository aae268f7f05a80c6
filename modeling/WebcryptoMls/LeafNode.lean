import WebcryptoMls.Codec

/-!
# Leaf nodes and parent nodes

The node contents of the ratchet tree, with the encoders the tree hashes and the
parent hashes run over. An open enumeration keeps a code point it has no name
for, so a credential type is one of the two known names or another number.
-/
namespace WebcryptoMls
open PrefixCode

inductive CredentialTypeName where
  | basic
  | x509
  | other (codePoint : ℤ)
  deriving Repr, DecidableEq

/-- `openEnumNumberEncoder(credentialTypes)` -/
def CredentialTypeName.toNumber : CredentialTypeName → ℤ
  | .basic => 1
  | .x509 => 2
  | .other n => n

inductive CapabilityProtocolVersion where
  | mls10
  | other (codePoint : ℤ)
  deriving Repr, DecidableEq

def CapabilityProtocolVersion.toNumber : CapabilityProtocolVersion → ℤ
  | .mls10 => 1
  | .other n => n

inductive CiphersuiteName where
  | MLS_128_DHKEMX25519_AES128GCM_SHA256_Ed25519
  | MLS_128_DHKEMP256_AES128GCM_SHA256_P256
  | MLS_128_DHKEMX25519_CHACHA20POLY1305_SHA256_Ed25519
  | MLS_256_DHKEMX448_AES256GCM_SHA512_Ed448
  | MLS_256_DHKEMP521_AES256GCM_SHA512_P521
  | MLS_256_DHKEMX448_CHACHA20POLY1305_SHA512_Ed448
  | MLS_256_DHKEMP384_AES256GCM_SHA384_P384
  | MLS_128_MLKEM512_AES128GCM_SHA256_Ed25519
  | MLS_128_MLKEM512_CHACHA20POLY1305_SHA256_Ed25519
  | MLS_256_MLKEM768_AES256GCM_SHA384_Ed25519
  | MLS_256_MLKEM768_CHACHA20POLY1305_SHA384_Ed25519
  | MLS_256_MLKEM1024_AES256GCM_SHA512_Ed25519
  | MLS_256_MLKEM1024_CHACHA20POLY1305_SHA512_Ed25519
  | MLS_256_XWING_AES256GCM_SHA512_Ed25519
  | MLS_256_XWING_CHACHA20POLY1305_SHA512_Ed25519
  | MLS_256_MLKEM1024_AES256GCM_SHA512_MLDSA87
  | MLS_256_MLKEM1024_CHACHA20POLY1305_SHA512_MLDSA87
  | MLS_256_XWING_AES256GCM_SHA512_MLDSA87
  | MLS_256_XWING_CHACHA20POLY1305_SHA512_MLDSA87
  | other (codePoint : ℤ)
  deriving Repr, DecidableEq

def CiphersuiteName.toNumber : CiphersuiteName → ℤ
  | .MLS_128_DHKEMX25519_AES128GCM_SHA256_Ed25519 => 1
  | .MLS_128_DHKEMP256_AES128GCM_SHA256_P256 => 2
  | .MLS_128_DHKEMX25519_CHACHA20POLY1305_SHA256_Ed25519 => 3
  | .MLS_256_DHKEMX448_AES256GCM_SHA512_Ed448 => 4
  | .MLS_256_DHKEMP521_AES256GCM_SHA512_P521 => 5
  | .MLS_256_DHKEMX448_CHACHA20POLY1305_SHA512_Ed448 => 6
  | .MLS_256_DHKEMP384_AES256GCM_SHA384_P384 => 7
  | .MLS_128_MLKEM512_AES128GCM_SHA256_Ed25519 => 0xf007
  | .MLS_128_MLKEM512_CHACHA20POLY1305_SHA256_Ed25519 => 0xf008
  | .MLS_256_MLKEM768_AES256GCM_SHA384_Ed25519 => 0xf009
  | .MLS_256_MLKEM768_CHACHA20POLY1305_SHA384_Ed25519 => 0xf00a
  | .MLS_256_MLKEM1024_AES256GCM_SHA512_Ed25519 => 0xf00b
  | .MLS_256_MLKEM1024_CHACHA20POLY1305_SHA512_Ed25519 => 0xf00c
  | .MLS_256_XWING_AES256GCM_SHA512_Ed25519 => 0xf00d
  | .MLS_256_XWING_CHACHA20POLY1305_SHA512_Ed25519 => 0xf00e
  | .MLS_256_MLKEM1024_AES256GCM_SHA512_MLDSA87 => 0xf00f
  | .MLS_256_MLKEM1024_CHACHA20POLY1305_SHA512_MLDSA87 => 0xf010
  | .MLS_256_XWING_AES256GCM_SHA512_MLDSA87 => 0xf011
  | .MLS_256_XWING_CHACHA20POLY1305_SHA512_MLDSA87 => 0xf012
  | .other n => n

inductive Credential where
  | basic (identity : Bytes)
  | x509 (certificates : List Bytes)
  | custom (codePoint : ℤ) (data : Bytes)
  deriving Repr, DecidableEq, Inhabited

def Credential.credentialType : Credential → CredentialTypeName
  | .basic _ => .basic
  | .x509 _ => .x509
  | .custom n _ => .other n

structure Capabilities where
  versions : List CapabilityProtocolVersion
  ciphersuites : List CiphersuiteName
  extensions : List ℤ
  proposals : List ℤ
  credentials : List CredentialTypeName
  deriving Repr, DecidableEq, Inhabited

inductive DefaultExtensionTypeName where
  | application_id
  | ratchet_tree
  | required_capabilities
  | external_pub
  | external_senders
  deriving Repr, DecidableEq

def defaultExtensionTypes : DefaultExtensionTypeName → ℤ
  | .application_id => 1
  | .ratchet_tree => 2
  | .required_capabilities => 3
  | .external_pub => 4
  | .external_senders => 5

inductive ExtensionType where
  | default (name : DefaultExtensionTypeName)
  | number (codePoint : ℤ)
  deriving Repr, DecidableEq

def extensionTypeToNumber : ExtensionType → ℤ
  | .default name => defaultExtensionTypes name
  | .number n => n

structure Extension where
  extensionType : ExtensionType
  extensionData : Bytes
  deriving Repr, DecidableEq

structure Lifetime where
  notBefore : ℤ
  notAfter : ℤ
  deriving Repr, DecidableEq, Inhabited

inductive LeafNodeSourceName where
  | key_package
  | update
  | commit
  deriving Repr, DecidableEq

/-- A leaf's source with the field that source carries. -/
inductive LeafNodeInfo where
  | key_package (lifetime : Lifetime)
  | update
  | commit (parentHash : Bytes)
  deriving Repr, DecidableEq, Inhabited

def LeafNodeInfo.leafNodeSource : LeafNodeInfo → LeafNodeSourceName
  | .key_package _ => .key_package
  | .update => .update
  | .commit _ => .commit

structure LeafNode where
  hpkePublicKey : Bytes
  signaturePublicKey : Bytes
  credential : Credential
  capabilities : Capabilities
  info : LeafNodeInfo
  extensions : List Extension
  signature : Bytes
  deriving Repr, DecidableEq, Inhabited

/-- A leaf whose source is a commit, with the parent hash such a leaf carries. -/
structure LeafNodeCommit where
  leaf : LeafNode
  parentHash : Bytes
  source : leaf.info = .commit parentHash
  deriving Repr, DecidableEq

structure ParentNode where
  hpkePublicKey : Bytes
  parentHash : Bytes
  unmergedLeaves : List ℕ
  deriving Repr, DecidableEq

/-! ## Encoders -/

def encodeCredentialType : Encoder CredentialTypeName :=
  contramapEncoder encodeUint16 CredentialTypeName.toNumber

def encodeCapabilityProtocolVersion : Encoder CapabilityProtocolVersion :=
  contramapEncoder encodeUint16 CapabilityProtocolVersion.toNumber

def encodeCiphersuite : Encoder CiphersuiteName :=
  contramapEncoder encodeUint16 CiphersuiteName.toNumber

def encodeCredentialBasic : Encoder Bytes := contramapEncoders [
  contramapEncoder encodeCredentialType fun _ => .basic,
  encodeVarLenData]

def encodeCredentialX509 : Encoder (List Bytes) := contramapEncoders [
  contramapEncoder encodeCredentialType fun _ => .x509,
  encodeVarLenType encodeVarLenData]

def encodeCredentialCustom (codePoint : ℤ) : Encoder Bytes := contramapEncoders [
  contramapEncoder encodeCredentialType fun _ => .other codePoint,
  encodeVarLenData]

def encodeCredential : Encoder Credential
  | .basic identity => encodeCredentialBasic identity
  | .x509 certificates => encodeCredentialX509 certificates
  | .custom codePoint data => encodeCredentialCustom codePoint data

def encodeCapabilities : Encoder Capabilities := contramapEncoders [
  contramapEncoder (encodeVarLenType encodeCapabilityProtocolVersion) Capabilities.versions,
  contramapEncoder (encodeVarLenType encodeCiphersuite) Capabilities.ciphersuites,
  contramapEncoder (encodeVarLenType encodeUint16) Capabilities.extensions,
  contramapEncoder (encodeVarLenType encodeUint16) Capabilities.proposals,
  contramapEncoder (encodeVarLenType encodeCredentialType) Capabilities.credentials]

def encodeExtensionType : Encoder ExtensionType :=
  contramapEncoder encodeUint16 extensionTypeToNumber

def encodeExtension : Encoder Extension := contramapEncoders [
  contramapEncoder encodeExtensionType Extension.extensionType,
  contramapEncoder encodeVarLenData Extension.extensionData]

def encodeLifetime : Encoder Lifetime := contramapEncoders [
  contramapEncoder encodeUint64 Lifetime.notBefore,
  contramapEncoder encodeUint64 Lifetime.notAfter]

def leafNodeSources : LeafNodeSourceName → ℤ
  | .key_package => 1
  | .update => 2
  | .commit => 3

def encodeLeafNodeSource : Encoder LeafNodeSourceName :=
  contramapEncoder encodeUint8 leafNodeSources

def encodeLeafNodeInfoLifetime : Encoder Lifetime := contramapEncoders [
  contramapEncoder encodeLeafNodeSource fun _ => .key_package,
  encodeLifetime]

def encodeLeafNodeInfoCommit : Encoder Bytes := contramapEncoders [
  contramapEncoder encodeLeafNodeSource fun _ => .commit,
  encodeVarLenData]

def encodeLeafNodeInfo : Encoder LeafNodeInfo
  | .key_package lifetime => encodeLeafNodeInfoLifetime lifetime
  | .update => encodeLeafNodeSource .update
  | .commit parentHash => encodeLeafNodeInfoCommit parentHash

def encodeLeafNodeData : Encoder LeafNode := contramapEncoders [
  contramapEncoder encodeVarLenData LeafNode.hpkePublicKey,
  contramapEncoder encodeVarLenData LeafNode.signaturePublicKey,
  contramapEncoder encodeCredential LeafNode.credential,
  contramapEncoder encodeCapabilities LeafNode.capabilities]

def encodeLeafNodeExtensions : Encoder LeafNode :=
  contramapEncoder (encodeVarLenType encodeExtension) LeafNode.extensions

def encodeLeafNode : Encoder LeafNode := contramapEncoders [
  encodeLeafNodeData,
  contramapEncoder encodeLeafNodeInfo LeafNode.info,
  encodeLeafNodeExtensions,
  contramapEncoder encodeVarLenData LeafNode.signature]

def encodeParentNode : Encoder ParentNode := contramapEncoders [
  contramapEncoder encodeVarLenData ParentNode.hpkePublicKey,
  contramapEncoder encodeVarLenData ParentNode.parentHash,
  contramapEncoder (encodeVarLenType fun n : ℕ => encodeUint32 n) ParentNode.unmergedLeaves]

/-! ## What an encoding determines -/

/-- A tag and a length-prefixed string, back to back. -/
theorem concat_pair_eq_ok {α β : Type} {tag : Encoder β} {t : β} {enc : Encoder α} {a : α}
    {x : Bytes} (h : contramapEncoders [contramapEncoder tag fun _ => t, enc] a = .ok x) :
    ∃ u v, tag t = .ok u ∧ enc a = .ok v ∧ x = u ++ v := by
  obtain ⟨u, v, hu, hv, rfl⟩ := concat_cons_eq_ok.mp h
  exact ⟨u, v, hu, concat_singleton_eq_ok.mp hv, rfl⟩

theorem concat_pair {α β : Type} {tag : Encoder β} {t : β} {enc : Encoder α} {a : α} {u v : Bytes}
    (hu : tag t = .ok u) (hv : enc a = .ok v) :
    contramapEncoders [contramapEncoder tag fun _ => t, enc] a = .ok (u ++ v) :=
  concat_cons_eq_ok.mpr ⟨u, v, hu, concat_singleton_eq_ok.mpr hv, rfl⟩

/-- Each kind of credential is its type and one length-prefixed string. -/
theorem encodeCredential_eq_ok {c : Credential} {x : Bytes} (h : encodeCredential c = .ok x) :
    ∃ d u v, encodeCredentialType c.credentialType = .ok u ∧ encodeVarLenData d = .ok v ∧
      x = u ++ v := by
  cases c with
  | basic identity =>
    obtain ⟨u, v, hu, hv, hx⟩ := concat_pair_eq_ok h
    exact ⟨identity, u, v, hu, hv, hx⟩
  | x509 certificates =>
    obtain ⟨u, v, hu, hv, hx⟩ := concat_pair_eq_ok h
    obtain ⟨body, -, hbody⟩ := encodeVarLenType_eq_ok.mp hv
    exact ⟨body, u, v, hu, hbody, hx⟩
  | custom codePoint data =>
    obtain ⟨u, v, hu, hv, hx⟩ := concat_pair_eq_ok h
    exact ⟨data, u, v, hu, hv, hx⟩

theorem prefixFree_encodeCredential : PrefixFree encodeCredential := by
  intro a b x y r s ha hb heq
  obtain ⟨d, t, u, ht, hu, rfl⟩ := encodeCredential_eq_ok ha
  obtain ⟨d', t', u', ht', hu', rfl⟩ := encodeCredential_eq_ok hb
  rw [List.append_assoc, List.append_assoc] at heq
  obtain ⟨rfl, hrest⟩ := ((prefixFree_encodeUint 2).comp _).rest ht ht' heq
  rw [prefixFree_encodeVarLenData d d' u u' r s hu hu' hrest]

theorem prefixFree_encodeCapabilities : PrefixFree encodeCapabilities := by
  apply prefixFree_concat
  intro e he
  simp only [List.mem_cons, List.not_mem_nil, or_false] at he
  rcases he with rfl | rfl | rfl | rfl | rfl <;> exact (prefixFree_encodeVarLenType _).comp _

theorem prefixFree_encodeLeafNodeData : PrefixFree encodeLeafNodeData := by
  apply prefixFree_concat
  intro e he
  simp only [List.mem_cons, List.not_mem_nil, or_false] at he
  rcases he with rfl | rfl | rfl | rfl
  · exact prefixFree_encodeVarLenData.comp _
  · exact prefixFree_encodeVarLenData.comp _
  · exact prefixFree_encodeCredential.comp _
  · exact prefixFree_encodeCapabilities.comp _

theorem encodeLeafNodeSource_eq_ok (source : LeafNodeSourceName) :
    encodeLeafNodeSource source = .ok [UInt8.ofNat (leafNodeSources source).toNat] := by
  cases source <;> decide

theorem encodeLeafNodeInfo_eq_ok {info : LeafNodeInfo} {x : Bytes}
    (h : encodeLeafNodeInfo info = .ok x) :
    (∃ lifetime u, info = .key_package lifetime ∧ encodeLifetime lifetime = .ok u ∧ x = 1 :: u) ∨
    (info = .update ∧ x = [2]) ∨
    (∃ parentHash u, info = .commit parentHash ∧ encodeVarLenData parentHash = .ok u ∧
      x = 3 :: u) := by
  cases info with
  | key_package lifetime =>
    obtain ⟨t, u, ht, hu, rfl⟩ := concat_pair_eq_ok h
    rw [encodeLeafNodeSource_eq_ok] at ht
    exact .inl ⟨lifetime, u, rfl, hu, by rw [← Except.ok.inj ht]; rfl⟩
  | update => exact .inr (.inl ⟨rfl, (Except.ok.inj h).symm⟩)
  | commit parentHash =>
    obtain ⟨t, u, ht, hu, rfl⟩ := concat_pair_eq_ok h
    rw [encodeLeafNodeSource_eq_ok] at ht
    exact .inr (.inr ⟨parentHash, u, rfl, hu, by rw [← Except.ok.inj ht]; rfl⟩)

theorem prefixFree_encodeLifetime : PrefixFree encodeLifetime := by
  apply prefixFree_concat
  intro e he
  simp only [List.mem_cons, List.not_mem_nil, or_false] at he
  rcases he with rfl | rfl <;> exact prefixFree_encodeUint64.comp _

/-- The source octet selects the field that follows it. -/
theorem prefixFree_encodeLeafNodeInfo : PrefixFree encodeLeafNodeInfo := by
  intro a b x y r s ha hb heq
  rcases encodeLeafNodeInfo_eq_ok ha with
    ⟨l, u, -, hu, rfl⟩ | ⟨-, rfl⟩ | ⟨p, u, -, hu, rfl⟩ <;>
  rcases encodeLeafNodeInfo_eq_ok hb with
    ⟨l', v, -, hv, rfl⟩ | ⟨-, rfl⟩ | ⟨p', v, -, hv, rfl⟩ <;>
  simp only [List.cons_append, List.nil_append, List.cons.injEq] at heq
  any_goals (refine absurd heq.1 ?_; decide)
  · rw [prefixFree_encodeLifetime l l' u v r s hu hv heq.2]
  · rfl
  · rw [prefixFree_encodeVarLenData p p' u v r s hu hv heq.2]

/-- `parentHash` of a leaf of a commit; other leaves have none. -/
def LeafNodeInfo.parentHash : LeafNodeInfo → Option Bytes
  | .commit parentHash => some parentHash
  | _ => none

theorem encodeLeafNodeInfo_parentHash {a b : LeafNodeInfo} {x : Bytes}
    (ha : encodeLeafNodeInfo a = .ok x) (hb : encodeLeafNodeInfo b = .ok x) :
    a.parentHash = b.parentHash := by
  rcases encodeLeafNodeInfo_eq_ok ha with
    ⟨l, u, rfl, hu, rfl⟩ | ⟨rfl, rfl⟩ | ⟨p, u, rfl, hu, rfl⟩ <;>
  rcases encodeLeafNodeInfo_eq_ok hb with
    ⟨l', v, rfl, hv, heq⟩ | ⟨rfl, heq⟩ | ⟨p', v, rfl, hv, heq⟩ <;>
  simp only [List.cons.injEq] at heq
  any_goals (refine absurd heq.1 ?_; decide)
  · rfl
  · rfl
  · rw [heq.2] at hu
    rw [encodeVarLenData_inj hu hv]

/-- The parts of a leaf encoding. -/
theorem prefixFree_leafNodeParts : ∀ e ∈ [encodeLeafNodeData,
    contramapEncoder encodeLeafNodeInfo LeafNode.info, encodeLeafNodeExtensions,
    contramapEncoder encodeVarLenData LeafNode.signature], PrefixFree e := by
  intro e he
  simp only [List.mem_cons, List.not_mem_nil, or_false] at he
  rcases he with rfl | rfl | rfl | rfl
  · exact prefixFree_encodeLeafNodeData
  · exact prefixFree_encodeLeafNodeInfo.comp _
  · exact (prefixFree_encodeVarLenType _).comp _
  · exact prefixFree_encodeVarLenData.comp _

theorem prefixFree_encodeLeafNode : PrefixFree encodeLeafNode :=
  prefixFree_concat prefixFree_leafNodeParts

/-- Leaves with one encoding carry one parent hash. -/
theorem encodeLeafNode_parentHash {a b : LeafNode} {x : Bytes} (ha : encodeLeafNode a = .ok x)
    (hb : encodeLeafNode b = .ok x) : a.info.parentHash = b.info.parentHash := by
  have hparts := (concat_parts (r := []) (s := []) prefixFree_leafNodeParts ha hb rfl).2
  obtain ⟨u, hu⟩ := concat_part_ok ha (e := contramapEncoder encodeLeafNodeInfo LeafNode.info)
    (by simp)
  have hv := hparts _ (show contramapEncoder encodeLeafNodeInfo LeafNode.info ∈ _ by simp)
  exact encodeLeafNodeInfo_parentHash hu (hv.symm.trans hu)

theorem prefixFree_parentNodeParts : ∀ e ∈ [
    contramapEncoder encodeVarLenData ParentNode.hpkePublicKey,
    contramapEncoder encodeVarLenData ParentNode.parentHash,
    contramapEncoder (encodeVarLenType fun n : ℕ => encodeUint32 n) ParentNode.unmergedLeaves],
    PrefixFree e := by
  intro e he
  simp only [List.mem_cons, List.not_mem_nil, or_false] at he
  rcases he with rfl | rfl | rfl
  · exact prefixFree_encodeVarLenData.comp _
  · exact prefixFree_encodeVarLenData.comp _
  · exact (prefixFree_encodeVarLenType _).comp _

theorem prefixFree_encodeParentNode : PrefixFree encodeParentNode :=
  prefixFree_concat prefixFree_parentNodeParts

/-- An encoded parent node is determined by its bytes. -/
theorem encodeParentNode_inj {a b : ParentNode} {x : Bytes} (ha : encodeParentNode a = .ok x)
    (hb : encodeParentNode b = .ok x) : a = b := by
  have hparts := (concat_parts (r := []) (s := []) prefixFree_parentNodeParts ha hb rfl).2
  have hok := fun e he => concat_part_ok (e := e) ha he
  obtain ⟨k, hk⟩ := hok (contramapEncoder encodeVarLenData ParentNode.hpkePublicKey) (by simp)
  obtain ⟨p, hp⟩ := hok (contramapEncoder encodeVarLenData ParentNode.parentHash) (by simp)
  obtain ⟨u, hu⟩ := hok (contramapEncoder (encodeVarLenType fun n : ℕ => encodeUint32 n)
    ParentNode.unmergedLeaves) (by simp)
  have hk' := (hparts _ (by simp)).symm.trans hk
  have hp' := (hparts _ (by simp)).symm.trans hp
  have hu' := (hparts _ (by simp)).symm.trans hu
  obtain ⟨c, hc, hcu⟩ := encodeVarLenType_eq_ok.mp hu
  obtain ⟨c', hc', hcu'⟩ := encodeVarLenType_eq_ok.mp hu'
  obtain rfl := encodeVarLenData_inj hcu hcu'
  have hne : ∀ n : ℕ, encodeUint32 n ≠ .ok [] := by
    intro n h
    have := (encodeUint_eq_ok h).2.2
    simp [bigEndian] at this
  have hul := items_inj ((prefixFree_encodeUint 4).comp fun n : ℕ => (n : ℤ)) hne
    (fun n m y hn hm => by exact_mod_cast encodeUint_inj hn hm) hc hc'
  cases a
  cases b
  simp only [ParentNode.mk.injEq]
  exact ⟨encodeVarLenData_inj hk hk', encodeVarLenData_inj hp hp', hul⟩

end WebcryptoMls
