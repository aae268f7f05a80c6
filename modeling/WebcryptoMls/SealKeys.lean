import WebcryptoMls.SealInvocations

/-!
# Keys and nonces of the seal schedule

No key is derived in two ways, and no nonce is used twice with one key. What is
derived is framed before it is extracted or expanded, and the framing can be undone;
so two derivations of one key are of the same secret, under the same label, from the
same fields, unless the extraction or the expansion itself has a collision.
-/
namespace WebcryptoMls
open PrefixCode

/-! ## Framing -/

theorem frame_eq_ok {kdf : Kdf} {x y : Bytes} :
    frame x kdf = .ok y ↔ x.length ≤ 0xFFFE ∧ y = uint16be x.length ++ x ∨
      0xFFFE < x.length ∧ ∃ digest, lh x kdf = .ok digest ∧ y = uint16be 0xFFFF ++ digest := by
  unfold frame
  by_cases hshort : x.length ≤ 0xFFFE
  · rw [if_pos hshort]
    simp [hshort, not_lt.mpr hshort, concatAll, pure, Except.pure, eq_comm]
  · rw [if_neg hshort, bind_eq_ok]
    simp [hshort, not_le.mp hshort, concatAll, pure, Except.pure, eq_comm]

/-- The digests of a key derivation function are of one size. -/
def Kdf.Sized (kdf : Kdf) : Prop :=
  ∀ salt ikm prk, kdf.extract salt ikm = .ok prk → prk.length = kdf.size

theorem length_lh {kdf : Kdf} (hsize : kdf.Sized) {x digest : Bytes} (h : lh x kdf = .ok digest) :
    digest.length = kdf.size := by
  obtain ⟨salt, -, h⟩ := bind_eq_ok.mp h
  exact hsize salt x digest h

/-- Two bytes at the front say which number they are. -/
theorem uint16be_append_inj {n m : ℕ} {x y : Bytes} (hn : n ≤ 0xFFFF) (hm : m ≤ 0xFFFF)
    (h : uint16be n ++ x = uint16be m ++ y) : n = m ∧ x = y := by
  obtain ⟨htag, hrest⟩ := List.append_inj h (by simp [uint16be, length_bigEndian])
  exact ⟨bigEndian_inj (by omega) (by omega) htag, hrest⟩

/-- A long field never looks like a short one, and the digests are of one length. -/
theorem frame_append_inj {kdf : Kdf} (hsize : kdf.Sized) {a b x y r s : Bytes}
    (ha : frame a kdf = .ok x) (hb : frame b kdf = .ok y) (heq : x ++ r = y ++ s) :
    x = y ∧ (a = b ∨ 0xFFFE < a.length ∧ 0xFFFE < b.length ∧
      ∃ digest, lh a kdf = .ok digest ∧ lh b kdf = .ok digest) := by
  rcases frame_eq_ok.mp ha with ⟨hla, rfl⟩ | ⟨hla, d, hd, rfl⟩ <;>
    rcases frame_eq_ok.mp hb with ⟨hlb, rfl⟩ | ⟨hlb, d', hd', rfl⟩ <;>
    rw [List.append_assoc, List.append_assoc] at heq <;>
    obtain ⟨hlen, hrest⟩ := uint16be_append_inj (by omega) (by omega) heq
  · obtain rfl := (List.append_inj hrest hlen).1
    exact ⟨rfl, .inl rfl⟩
  · omega
  · omega
  · obtain rfl := (List.append_inj hrest ((length_lh hsize hd).trans (length_lh hsize hd').symm)).1
    exact ⟨rfl, .inr ⟨hla, hlb, d, hd, hd'⟩⟩

theorem prefixFree_frame {kdf : Kdf} (hsize : kdf.Sized) : PrefixFree fun x => frame x kdf :=
  fun _ _ _ _ _ _ ha hb heq => (frame_append_inj hsize ha hb heq).1

/-- A list of fields of any lengths is determined by its framing, as far as no two long
ones have one digest. -/
theorem encodeFramed_inj {kdf : Kdf} (hsize : kdf.Sized) {parts parts' : List Bytes} {x : Bytes}
    (hfree : CollisionFree (fun x => lh x kdf) {x | x ∈ parts ++ parts' ∧ 0xFFFE < x.length})
    (h : encodeFramed kdf parts = .ok x) (h' : encodeFramed kdf parts' = .ok x) :
    parts = parts' := by
  have hne : ∀ a, frame a kdf ≠ .ok [] := by
    intro a ha
    rcases frame_eq_ok.mp ha with ⟨-, hnil⟩ | ⟨-, d, -, hnil⟩ <;>
      simp [uint16be, bigEndian] at hnil
  refine items_inj_on (prefixFree_frame hsize) hne (fun a ha b hb y hya hyb => ?_) h h'
  rcases (frame_append_inj (r := []) (s := []) hsize hya hyb rfl).2 with heq | ⟨hla, hlb, d, hd, hd'⟩
  · exact heq
  · exact hfree a ⟨List.mem_append_left _ ha, hla⟩ b ⟨List.mem_append_right _ hb, hlb⟩ d hd hd'

/-! ## Derivations -/

structure ExtractCall where
  kdf : Kdf
  salt : Bytes
  ikm : Bytes

structure ExpandCall where
  kdf : Kdf
  prk : Bytes
  info : Bytes
  length : ℕ

/-- Everything that a derivation is of. -/
structure Derivation where
  kdf : Kdf
  protocolId : String
  label : String
  ikm : List Bytes
  info : List Bytes
  length : ℕ

namespace Derivation
variable (d : Derivation)

def derive : Except MlsError Bytes :=
  sealKdf d.kdf d.protocolId d.label d.ikm d.info d.length

def extractParts : List Bytes := encodeText d.protocolId :: encodeText d.label :: d.ikm

def expandParts : List Bytes :=
  encodeText d.protocolId :: encodeText d.label :: (d.info ++ [uint16be d.length])

/-- What a derivation extracts: its secret, and a digest of each long field. -/
inductive Extracts : ExtractCall → Prop
  | ikm {salt x : Bytes} (hsalt : paddedSalt d.kdf (encodeText d.protocolId) = .ok salt)
      (hx : encodeFramed d.kdf d.extractParts = .ok x) :
      Extracts { kdf := d.kdf, salt := salt, ikm := x }
  | field {salt x : Bytes} (hsalt : paddedSalt d.kdf LP_SALT = .ok salt)
      (hx : x ∈ d.extractParts ∨ x ∈ d.expandParts) (hlong : 0xFFFE < x.length) :
      Extracts { kdf := d.kdf, salt := salt, ikm := x }

/-- What a derivation expands. -/
inductive Expands : ExpandCall → Prop
  | okm {salt x prk info : Bytes} (hsalt : paddedSalt d.kdf (encodeText d.protocolId) = .ok salt)
      (hx : encodeFramed d.kdf d.extractParts = .ok x) (hprk : d.kdf.extract salt x = .ok prk)
      (hinfo : encodeFramed d.kdf d.expandParts = .ok info) :
      Expands { kdf := d.kdf, prk := prk, info := info, length := d.length }

end Derivation

/-- No two extractions of some derivations have one output, nor have two expansions. -/
structure Secure (derived : Set Derivation) : Prop where
  sized : ∀ d ∈ derived, d.kdf.Sized
  extract : CollisionFree (fun c : ExtractCall => c.kdf.extract c.salt c.ikm)
    {c | ∃ d ∈ derived, d.Extracts c}
  expand : CollisionFree (fun c : ExpandCall => c.kdf.expand c.prk c.info c.length)
    {c | ∃ d ∈ derived, d.Expands c}

theorem Secure.mono {derived more : Set Derivation} (h : Secure more) (hsub : derived ⊆ more) :
    Secure derived where
  sized d hd := h.sized d (hsub hd)
  extract := h.extract.mono fun _ ⟨d, hd, hc⟩ => ⟨d, hsub hd, hc⟩
  expand := h.expand.mono fun _ ⟨d, hd, hc⟩ => ⟨d, hsub hd, hc⟩

/-- Of the long fields of two derivations no two have one digest. -/
theorem Secure.longFields {derived : Set Derivation} (h : Secure derived) {d d' : Derivation}
    (hd : d ∈ derived) (hd' : d' ∈ derived) (hkdf : d'.kdf = d.kdf) {parts parts' : List Bytes}
    (hparts : ∀ x ∈ parts, x ∈ d.extractParts ∨ x ∈ d.expandParts)
    (hparts' : ∀ x ∈ parts', x ∈ d'.extractParts ∨ x ∈ d'.expandParts) :
    CollisionFree (fun x => lh x d.kdf) {x | x ∈ parts ++ parts' ∧ 0xFFFE < x.length} := by
  rintro x ⟨hx, hxlong⟩ y ⟨hy, hylong⟩ digest hxd hyd
  obtain ⟨salt, hsalt, hxd⟩ := bind_eq_ok.mp hxd
  obtain ⟨salt', hsalt', hyd⟩ := bind_eq_ok.mp hyd
  obtain rfl := Except.ok.inj (hsalt.symm.trans hsalt')
  have hcall : ∀ z ∈ parts ++ parts', 0xFFFE < z.length →
      ∃ e ∈ derived, e.Extracts { kdf := d.kdf, salt := salt, ikm := z } := by
    intro z hz hlong
    rcases List.mem_append.mp hz with hz | hz
    · exact ⟨d, hd, .field hsalt (hparts z hz) hlong⟩
    · exact ⟨d', hd', hkdf ▸ .field (hkdf ▸ hsalt) (hparts' z hz) hlong⟩
  have heq := h.extract _ (hcall x hx hxlong) _ (hcall y hy hylong) digest hxd hyd
  exact (ExtractCall.mk.inj heq).2.2

/-- Two derivations of one key are the same derivation. -/
theorem Secure.derive_inj {derived : Set Derivation} (h : Secure derived) {d d' : Derivation}
    (hd : d ∈ derived) (hd' : d' ∈ derived) {okm : Bytes} (hokm : d.derive = .ok okm)
    (hokm' : d'.derive = .ok okm) : d = d' := by
  obtain ⟨x, hx, hrest⟩ := bind_eq_ok.mp hokm
  obtain ⟨salt, hsalt, hrest⟩ := bind_eq_ok.mp hrest
  obtain ⟨prk, hprk, hrest⟩ := bind_eq_ok.mp hrest
  obtain ⟨info, hinfo, hexpand⟩ := bind_eq_ok.mp hrest
  obtain ⟨x', hx', hrest'⟩ := bind_eq_ok.mp hokm'
  obtain ⟨salt', hsalt', hrest'⟩ := bind_eq_ok.mp hrest'
  obtain ⟨prk', hprk', hrest'⟩ := bind_eq_ok.mp hrest'
  obtain ⟨info', hinfo', hexpand'⟩ := bind_eq_ok.mp hrest'
  have hexpanded := h.expand _ ⟨d, hd, .okm hsalt hx hprk hinfo⟩ _
    ⟨d', hd', .okm hsalt' hx' hprk' hinfo'⟩ okm hexpand hexpand'
  obtain ⟨hkdf, rfl, rfl, hlength⟩ := ExpandCall.mk.inj hexpanded
  have hextracted := h.extract _ ⟨d, hd, .ikm hsalt hx⟩ _ ⟨d', hd', .ikm hsalt' hx'⟩ prk hprk hprk'
  obtain ⟨-, -, rfl⟩ := ExtractCall.mk.inj hextracted
  have hextract : d.extractParts = d'.extractParts :=
    encodeFramed_inj (h.sized d hd)
      (h.longFields hd hd' hkdf.symm (fun _ => Or.inl) (fun _ => Or.inl)) hx (hkdf ▸ hx')
  have hexpand : d.expandParts = d'.expandParts :=
    encodeFramed_inj (h.sized d hd)
      (h.longFields hd hd' hkdf.symm (fun _ => Or.inr) (fun _ => Or.inr)) hinfo (hkdf ▸ hinfo')
  obtain ⟨kdf, protocolId, label, ikm, info, length⟩ := d
  obtain ⟨kdf', protocolId', label', ikm', info', length'⟩ := d'
  simp only [Derivation.extractParts, Derivation.expandParts, List.cons.injEq] at hextract hexpand
  obtain ⟨hid, hlabel, rfl⟩ := hextract
  obtain ⟨rfl, -⟩ := List.append_inj' hexpand.2.2 rfl
  rw [Derivation.mk.injEq]
  exact ⟨hkdf, encodeText_inj hid, encodeText_inj hlabel, rfl, rfl, hlength⟩

/-! ## The schedule -/

/-- A schedule as sealing or opening derives it. -/
structure Schedule where
  cek : Bytes
  params : SealParams
  objectId : Bytes
  crypto : SealCrypto
  state : SealState
  derived : deriveSchedule cek params objectId crypto = .ok state

namespace Schedule
variable (s : Schedule)

/-- A derivation from the content encryption key. -/
def ofCek (label : String) (info : List Bytes) (length : ℕ) : Derivation where
  kdf := s.crypto.kdf
  protocolId := s.params.protocolId
  label := label
  ikm := [s.cek]
  info := info
  length := length

def commitment : Derivation :=
  s.ofCek "commit" (rawFields s.params ++ [s.objectId]) s.crypto.kdf.size

def payloadKey : Derivation := s.ofCek "payload_key" (rawFields s.params) s.crypto.keyLength

def snapKey : Derivation := s.ofCek "acc_key" (rawFields s.params) s.crypto.kdf.size

def nonceBase : Derivation := s.ofCek "nonce_base" (rawFields s.params) s.crypto.nonceLength

/-- The key of the epoch of a segment. -/
def epochKey (index : ℕ) : Derivation where
  kdf := s.crypto.kdf
  protocolId := s.params.protocolId
  label := "epoch_key"
  ikm := [s.state.payloadKey]
  info := [bigEndian 8 (index / 2 ^ s.params.epochLength)]
  length := s.crypto.keyLength

/-- A digest of the snapshot. -/
def ofSnapKey (label : String) (info : List Bytes) : Derivation where
  kdf := s.crypto.kdf
  protocolId := s.params.protocolId
  label := label
  ikm := [s.state.snapKey]
  info := info
  length := s.crypto.kdf.size

/-- What a schedule derives, and how. -/
inductive Derives : Derivation → Bytes → Prop
  | commit : Derives s.commitment s.state.commitment
  | payload_key : Derives s.payloadKey s.state.payloadKey
  | acc_key : Derives s.snapKey s.state.snapKey
  | nonce_base {nonceBase : Bytes} (h : s.state.nonceBase = some nonceBase) :
      Derives s.nonceBase nonceBase
  | epoch_key {index : ℕ} {key : Bytes} (h : segmentKey s.state index = .ok key) :
      Derives (s.epochKey index) key
  | snap_epoch {run digest head : Bytes} (hdigest : lh run s.crypto.kdf = .ok digest)
      (h : epochHead s.state run = .ok head) : Derives (s.ofSnapKey "snap_epoch" [digest]) head
  | snap_epoch_root {nSeg : ℕ} {heads digest root : Bytes}
      (hdigest : lh heads s.crypto.kdf = .ok digest) (h : epochTreeRoot s.state nSeg heads = .ok root) :
      Derives (s.ofSnapKey "snap_epoch_root" [s.state.commitment, bigEndian 8 nSeg, digest]) root

/-- What a schedule has is derived as it says. -/
structure Spec : Prop where
  valid : validateParams s.params = .ok ()
  params : s.state.params = s.params
  crypto : s.state.crypto = s.crypto
  commitment : s.commitment.derive = .ok s.state.commitment
  payloadKey : s.payloadKey.derive = .ok s.state.payloadKey
  snapKey : s.snapKey.derive = .ok s.state.snapKey
  nonceBase : ∀ nonceBase, s.state.nonceBase = some nonceBase → s.nonceBase.derive = .ok nonceBase

theorem spec : s.Spec := by
  obtain ⟨_, hvalid, h⟩ := bind_eq_ok.mp s.derived
  obtain ⟨commitment, hcommitment, h⟩ := bind_eq_ok.mp h
  obtain ⟨payloadKey, hpayloadKey, h⟩ := bind_eq_ok.mp h
  obtain ⟨snapKey, hsnapKey, h⟩ := bind_eq_ok.mp h
  obtain ⟨nonceBase, hnonceBase, hstate⟩ : ∃ nonceBase,
      (∀ base, nonceBase = some base → s.nonceBase.derive = .ok base) ∧
      s.state = SealState.mk s.params commitment payloadKey snapKey nonceBase s.crypto := by
    dsimp only at h
    split_ifs at h
    · obtain ⟨nonceBase, hnonceBase, h⟩ := bind_eq_ok.mp h
      obtain ⟨derived, hderived, rfl⟩ := map_eq_ok.mp hnonceBase
      refine ⟨_, fun base hbase => ?_, (Except.ok.inj h).symm⟩
      obtain rfl := Option.some.inj hbase
      exact hderived
    · exact ⟨none, nofun, (Except.ok.inj h).symm⟩
  refine ⟨hvalid, ?_, ?_, ?_, ?_, ?_, ?_⟩ <;> rw [hstate]
  · exact hcommitment
  · exact hpayloadKey
  · exact hsnapKey
  · exact hnonceBase

theorem epochKey_derive {index : ℕ} {key : Bytes} (h : segmentKey s.state index = .ok key) :
    index < 2 ^ 63 ∧ (s.epochKey index).derive = .ok key := by
  unfold segmentKey at h
  split_ifs at h with hindex
  obtain ⟨epochIndex, hepoch, h⟩ := bind_eq_ok.mp h
  unfold uint64be at hepoch
  split_ifs at hepoch
  obtain rfl := Except.ok.inj hepoch
  rw [s.spec.crypto, s.spec.params] at h
  exact ⟨not_le.mp hindex, h⟩

variable {s}

theorem Derives.derive {d : Derivation} {x : Bytes} (h : s.Derives d x) : d.derive = .ok x := by
  cases h with
  | commit => exact s.spec.commitment
  | payload_key => exact s.spec.payloadKey
  | acc_key => exact s.spec.snapKey
  | nonce_base h => exact s.spec.nonceBase _ h
  | epoch_key h => exact (s.epochKey_derive h).2
  | snap_epoch hdigest h =>
    unfold epochHead at h
    rw [s.spec.crypto, s.spec.params, hdigest] at h
    exact h
  | snap_epoch_root hdigest h =>
    unfold epochTreeRoot at h
    rw [s.spec.crypto, s.spec.params, hdigest, ok_bind] at h
    obtain ⟨count, hcount, h⟩ := bind_eq_ok.mp h
    unfold uint64be at hcount
    split_ifs at hcount
    obtain rfl := Except.ok.inj hcount
    exact h

end Schedule

/-! ## Nonces -/

theorem zipWith_xor_inj {a b c : Bytes} (hb : a.length = b.length) (hc : a.length = c.length)
    (h : List.zipWith (· ^^^ ·) a b = List.zipWith (· ^^^ ·) a c) : b = c := by
  induction a generalizing b c with
  | nil =>
    rw [List.length_eq_zero_iff.mp hb.symm, List.length_eq_zero_iff.mp hc.symm]
  | cons x a ih =>
    cases b with
    | nil => simp at hb
    | cons y b =>
      cases c with
      | nil => simp at hc
      | cons z c =>
        simp only [List.zipWith_cons_cons, List.cons.injEq] at h
        obtain ⟨hfirst, hrest⟩ := h
        rw [UInt8.xor_comm x y, UInt8.xor_comm x z, UInt8.xor_left_inj] at hfirst
        rw [hfirst, ih (by simpa using hb) (by simpa using hc) hrest]

theorem derivedNonce_eq_ok {nonceBase nonce : Bytes} {index : ℕ} {isFinal : Bool}
    (h : derivedNonce nonceBase index isFinal = .ok nonce) :
    8 ≤ nonceBase.length ∧ index < 2 ^ 63 ∧
      nonce = nonceBase.take (nonceBase.length - 8) ++
        List.zipWith (· ^^^ ·) (nonceBase.drop (nonceBase.length - 8))
          (bigEndian 8 (2 * index + isFinal.toNat)) := by
  unfold derivedNonce at h
  split_ifs at h with hlen hindex
  obtain ⟨tail, htail, h⟩ := bind_eq_ok.mp h
  unfold uint64be at htail
  split_ifs at htail
  obtain rfl := Except.ok.inj htail
  exact ⟨not_lt.mp hlen, not_le.mp hindex, (Except.ok.inj h).symm⟩

/-- A nonce tells the index and the finality it was derived for. -/
theorem derivedNonce_inj {nonceBase nonce : Bytes} {index index' : ℕ} {isFinal isFinal' : Bool}
    (h : derivedNonce nonceBase index isFinal = .ok nonce)
    (h' : derivedNonce nonceBase index' isFinal' = .ok nonce) :
    index = index' ∧ isFinal = isFinal' := by
  obtain ⟨hlen, hindex, rfl⟩ := derivedNonce_eq_ok h
  obtain ⟨-, hindex', heq⟩ := derivedNonce_eq_ok h'
  have hdrop : (nonceBase.drop (nonceBase.length - 8)).length = 8 := by
    rw [List.length_drop]
    omega
  have htail := zipWith_xor_inj (hdrop.trans (length_bigEndian 8 _).symm)
    (hdrop.trans (length_bigEndian 8 _).symm) (List.append_cancel_left heq)
  have hflag := isFinal.toNat_le
  have hflag' := isFinal'.toNat_le
  have hmixed := bigEndian_inj (by omega) (by omega) htail
  refine ⟨by omega, ?_⟩
  have hbit : isFinal.toNat = isFinal'.toNat := by omega
  cases isFinal <;> cases isFinal' <;> simp_all

/-! ## What a key and a nonce are bound to -/

theorem validateParams_eq_ok {p : SealParams} (h : validateParams p = .ok ()) :
    (0 ≤ p.aeadId ∧ p.aeadId ≤ 0xFFFF) ∧ (0 ≤ p.kdfId ∧ p.kdfId ≤ 0xFFFF) ∧
      (0 ≤ p.snapId ∧ p.snapId ≤ 0xFFFF) ∧ p.segmentMax ≤ 0xFFFFFFFF ∧
      (0 ≤ p.nonceMode ∧ p.nonceMode ≤ 0xFF) ∧ p.epochLength ≤ 0xFF := by
  unfold validateParams at h
  split_ifs at h
  omega

/-- The fields of two parameter sets that are valid are told apart. -/
theorem rawFields_inj {p p' : SealParams} (h : validateParams p = .ok ())
    (h' : validateParams p' = .ok ()) (heq : rawFields p = rawFields p') :
    p.aeadId = p'.aeadId ∧ p.kdfId = p'.kdfId ∧ p.snapId = p'.snapId ∧
      p.nonceMode = p'.nonceMode ∧ p.segmentMax = p'.segmentMax ∧
      p.epochLength = p'.epochLength ∧ p.salt = p'.salt := by
  obtain ⟨haead, hkdf, hsnap, hmax, hmode, hepoch⟩ := validateParams_eq_ok h
  obtain ⟨haead', hkdf', hsnap', hmax', hmode', hepoch'⟩ := validateParams_eq_ok h'
  have hbyte : ∀ {n m : ℕ}, n ≤ 0xFF → m ≤ 0xFF → UInt8.ofNat n = UInt8.ofNat m → n = m := by
    intro n m hn hm h
    have := congrArg UInt8.toNat h
    simp only [UInt8.toNat_ofNat'] at this
    omega
  simp only [rawFields, List.cons.injEq, and_true] at heq
  obtain ⟨h1, h2, h3, h4, h5, h6, h7⟩ := heq
  have h1 := bigEndian_inj (by omega) (by omega) h1
  have h2 := bigEndian_inj (by omega) (by omega) h2
  have h3 := bigEndian_inj (by omega) (by omega) h3
  have h4 := bigEndian_inj (by omega) (by omega) h4
  have h5 := hbyte (by omega) (by omega) h5
  exact ⟨by omega, by omega, by omega, by omega, h2, hbyte hepoch hepoch' h6, h7⟩

/-- Under a derived nonce. -/
theorem SegmentUse.derived {s : Schedule} {index : ℕ} {isFinal : Bool} {key nonce : Bytes}
    (h : SegmentUse s.state index isFinal key nonce) (hmode : s.params.nonceMode = NONCE_DERIVED) :
    ∃ nonceBase, s.nonceBase.derive = .ok nonceBase ∧
      derivedNonce nonceBase index isFinal = .ok nonce ∧ nonce.length = s.crypto.nonceLength := by
  obtain ⟨given, hnonce⟩ := h.nonce
  unfold segmentNonce at hnonce
  rw [s.spec.params, if_pos hmode] at hnonce
  cases hbase : s.state.nonceBase with
  | none =>
    rw [hbase] at hnonce
    cases hnonce
  | some nonceBase =>
    rw [hbase] at hnonce
    obtain ⟨nonce', hderived, hnonce⟩ := bind_eq_ok.mp hnonce
    dsimp only at hnonce
    split_ifs at hnonce with hlen
    obtain rfl := Except.ok.inj hnonce
    rw [s.spec.crypto] at hlen
    exact ⟨nonceBase, s.spec.nonceBase nonceBase hbase, hderived, not_not.mp hlen⟩

theorem segmentUse_inj {s s' : Schedule} {index index' : ℕ} {isFinal isFinal' : Bool}
    {key nonce : Bytes} (hmode : s.params.nonceMode = NONCE_DERIVED)
    (hmode' : s'.params.nonceMode = NONCE_DERIVED)
    (hsecure : Secure {s.payloadKey, s.epochKey index, s'.payloadKey, s'.epochKey index'})
    (h : SegmentUse s.state index isFinal key nonce)
    (h' : SegmentUse s'.state index' isFinal' key nonce) :
    s.cek = s'.cek ∧ rawFields s.params = rawFields s'.params ∧ index = index' ∧
      isFinal = isFinal' := by
  have hepoch := hsecure.derive_inj (by simp) (by simp) (s.epochKey_derive h.key).2
    (s'.epochKey_derive h'.key).2
  simp only [Schedule.epochKey, Derivation.mk.injEq, List.cons.injEq, and_true] at hepoch
  obtain ⟨hkdf, hid, -, hkey, -, -⟩ := hepoch
  have hpayload := hsecure.derive_inj (by simp) (by simp) s.spec.payloadKey
    (hkey ▸ s'.spec.payloadKey)
  simp only [Schedule.payloadKey, Schedule.ofCek, Derivation.mk.injEq, List.cons.injEq,
    and_true] at hpayload
  obtain ⟨-, -, -, hcek, hfields, -⟩ := hpayload
  obtain ⟨base, hbase, hnonce, hlen⟩ := h.derived hmode
  obtain ⟨base', hbase', hnonce', hlen'⟩ := h'.derived hmode'
  -- The two bases are one derivation, of as many bytes as the nonce has.
  have hsame : s.nonceBase = s'.nonceBase := by
    simp only [Schedule.nonceBase, Schedule.ofCek, Derivation.mk.injEq]
    exact ⟨hkdf, hid, trivial, by rw [hcek], hfields, hlen.symm.trans hlen'⟩
  rw [hsame, hbase'] at hbase
  obtain rfl := Except.ok.inj hbase
  obtain ⟨hindex, hfinal⟩ := derivedNonce_inj hnonce hnonce'
  exact ⟨hcek, hfields, hindex, hfinal⟩

/-- Within one object every segment has a nonce of its own. -/
theorem segmentUse_index_inj {s : Schedule} {index index' : ℕ} {isFinal isFinal' : Bool}
    {key key' nonce : Bytes} (hmode : s.params.nonceMode = NONCE_DERIVED)
    (h : SegmentUse s.state index isFinal key nonce)
    (h' : SegmentUse s.state index' isFinal' key' nonce) : index = index' := by
  obtain ⟨base, hbase, hnonce, -⟩ := h.derived hmode
  obtain ⟨base', hbase', hnonce', -⟩ := h'.derived hmode
  obtain rfl := Except.ok.inj (hbase.symm.trans hbase')
  exact (derivedNonce_inj hnonce hnonce').1

/-- The calls of one object are each under a nonce of their own. -/
theorem nodup_objectCalls (cek objectId plaintext salt : Bytes) (crypto : SealCrypto) :
    ((objectCalls cek objectId plaintext salt crypto).map fun c => (c.key, c.nonce)).Nodup := by
  unfold objectCalls
  split
  · rename_i state l hstate hlayout
    rw [List.nodup_iff_pairwise_ne, List.pairwise_map, List.pairwise_flatMap]
    refine ⟨fun i _ => pairwise_segmentCalls, List.nodup_range.imp fun {i j} hne => ?_⟩
    intro c hc c' hc' heq
    have huse := segmentCalls_use hc
    rw [(Prod.mk.inj heq).2] at huse
    exact hne (segmentUse_index_inj (s := ⟨_, _, _, _, state, hstate⟩) rfl huse
      (segmentCalls_use hc'))
  · exact List.nodup_nil

/-- Framed fields can be told apart; a key and a nonce that two invocations use are bound
to everything that their segments are sealed under; no two labels give one key; and
sealing an object asks the AEAD for nothing under a key and a nonce that it has used. -/
theorem seal_keys_and_nonces :
    (∀ kdf parts parts' x, Kdf.Sized kdf →
      CollisionFree (fun x => lh x kdf) {x | x ∈ parts ++ parts' ∧ 0xFFFE < x.length} →
        encodeFramed kdf parts = .ok x → encodeFramed kdf parts' = .ok x → parts = parts') ∧
    ((∀ state (invocation : Invocation) result, invocation.run state = .ok result →
      ∃ key nonce, invocation.Uses state key nonce) ∧
    ∀ (s s' : Schedule) (invocation invocation' : Invocation) key nonce,
      s.params.nonceMode = NONCE_DERIVED → s'.params.nonceMode = NONCE_DERIVED →
      Secure {s.payloadKey, s.epochKey invocation.index, s'.payloadKey,
        s'.epochKey invocation'.index} →
        invocation.Uses s.state key nonce → invocation'.Uses s'.state key nonce →
          s.cek = s'.cek ∧ s.params.aeadId = s'.params.aeadId ∧ s.params.kdfId = s'.params.kdfId ∧
          s.params.snapId = s'.params.snapId ∧ s.params.nonceMode = s'.params.nonceMode ∧
          s.params.segmentMax = s'.params.segmentMax ∧
          s.params.epochLength = s'.params.epochLength ∧ s.params.salt = s'.params.salt ∧
          invocation.index = invocation'.index ∧ invocation.isFinal = invocation'.isFinal) ∧
    (∀ (s s' : Schedule) d d' x, s.Derives d x → s'.Derives d' x → Secure {d, d'} →
      d.label = d'.label) ∧
    ∀ cek objectId plaintext salt crypto, ∃ calls : List AeadCall,
      DependsOn (fun answers =>
        sealObject cek objectId plaintext salt (crypto.withAead (.ofAnswers answers)))
        {c | c ∈ calls} ∧
      (calls.map fun c => (c.key, c.nonce)).Nodup ∧
      ∀ sealed, sealObject cek objectId plaintext salt crypto = .ok sealed →
        concatAll (calls.map AeadCall.data) = plaintext ∧ ∀ c ∈ calls, c.decrypts = false := by
  refine ⟨?_, ⟨?_, ?_⟩, ?_, ?_⟩
  · intro kdf parts parts' x hsize hfree h h'
    exact encodeFramed_inj hsize hfree h h'
  · intro state invocation result h
    exact Invocation.exists_uses h
  · intro s s' invocation invocation' key nonce hmode hmode' hsecure h h'
    obtain ⟨hcek, hfields, hindex, hfinal⟩ :=
      segmentUse_inj hmode hmode' hsecure h.segmentUse h'.segmentUse
    obtain ⟨haead, hkdf, hsnap, hnonceMode, hmax, hepoch, hsalt⟩ :=
      rawFields_inj s.spec.valid s'.spec.valid hfields
    exact ⟨hcek, haead, hkdf, hsnap, hnonceMode, hmax, hepoch, hsalt, hindex, hfinal⟩
  · intro s s' d d' x h h' hsecure
    rw [hsecure.derive_inj (by simp) (by simp) h.derive h'.derive]
  · intro cek objectId plaintext salt crypto
    exact ⟨objectCalls cek objectId plaintext salt crypto, sealObject_dependsOn ..,
      nodup_objectCalls .., fun sealed h => objectCalls_of_sealObject h⟩

/-! ## One schedule -/

/-- Two derivations without long fields, of different inputs. -/
theorem secure_pair {d d' : Derivation} (hsized : d.kdf.Sized) (hsized' : d'.kdf.Sized)
    (hshort : ∀ x, x ∈ d.extractParts ∨ x ∈ d.expandParts → x.length ≤ 0xFFFE)
    (hshort' : ∀ x, x ∈ d'.extractParts ∨ x ∈ d'.expandParts → x.length ≤ 0xFFFE)
    (hextract : ∀ x x' salt salt' prk, encodeFramed d.kdf d.extractParts = .ok x →
      encodeFramed d'.kdf d'.extractParts = .ok x' → d.kdf.extract salt x = .ok prk →
        d'.kdf.extract salt' x' ≠ .ok prk)
    (hexpand : ∀ info info' prk prk' okm, encodeFramed d.kdf d.expandParts = .ok info →
      encodeFramed d'.kdf d'.expandParts = .ok info' → d.kdf.expand prk info d.length = .ok okm →
        d'.kdf.expand prk' info' d'.length ≠ .ok okm) : Secure {d, d'} := by
  have hone : ∀ e : Derivation, (∀ x, x ∈ e.extractParts ∨ x ∈ e.expandParts → x.length ≤ 0xFFFE) →
      ∀ c c', e.Extracts c → e.Extracts c' → c = c' := by
    intro e hshort c c' hc hc'
    cases hc with
    | field _ hx hlong => exact absurd (hshort _ hx) (not_le.mpr hlong)
    | ikm hsalt hx =>
      cases hc' with
      | field _ hx hlong => exact absurd (hshort _ hx) (not_le.mpr hlong)
      | ikm hsalt' hx' =>
        obtain rfl := Except.ok.inj (hsalt.symm.trans hsalt')
        obtain rfl := Except.ok.inj (hx.symm.trans hx')
        rfl
  have hokm : ∀ e : Derivation, ∀ c c', e.Expands c → e.Expands c' → c = c' := by
    intro e c c' hc hc'
    obtain ⟨hsalt, hx, hprk, hinfo⟩ := hc
    obtain ⟨hsalt', hx', hprk', hinfo'⟩ := hc'
    obtain rfl := Except.ok.inj (hsalt.symm.trans hsalt')
    obtain rfl := Except.ok.inj (hx.symm.trans hx')
    obtain rfl := Except.ok.inj (hprk.symm.trans hprk')
    obtain rfl := Except.ok.inj (hinfo.symm.trans hinfo')
    rfl
  have hne : ∀ c c' prk, d.Extracts c → d'.Extracts c' → c.kdf.extract c.salt c.ikm = .ok prk →
      c'.kdf.extract c'.salt c'.ikm ≠ .ok prk := by
    intro c c' prk hc hc'
    cases hc with
    | field _ hx hlong => exact absurd (hshort _ hx) (not_le.mpr hlong)
    | ikm hsalt hx =>
      cases hc' with
      | field _ hx hlong => exact absurd (hshort' _ hx) (not_le.mpr hlong)
      | ikm hsalt' hx' => exact hextract _ _ _ _ prk hx hx'
  have hne' : ∀ c c' okm, d.Expands c → d'.Expands c' →
      c.kdf.expand c.prk c.info c.length = .ok okm →
        c'.kdf.expand c'.prk c'.info c'.length ≠ .ok okm := by
    intro c c' okm hc hc'
    obtain ⟨-, -, -, hinfo⟩ := hc
    obtain ⟨-, -, -, hinfo'⟩ := hc'
    exact hexpand _ _ _ _ okm hinfo hinfo'
  refine ⟨?_, ?_, ?_⟩
  · rintro e (rfl | rfl)
    · exact hsized
    · exact hsized'
  · rintro c ⟨e, rfl | rfl, hc⟩ c' ⟨e', rfl | rfl, hc'⟩ prk hprk hprk'
    · exact hone _ hshort c c' hc hc'
    · exact absurd hprk' (hne c c' prk hc hc' hprk)
    · exact absurd hprk (hne c' c prk hc' hc hprk')
    · exact hone _ hshort' c c' hc hc'
  · rintro c ⟨e, rfl | rfl, hc⟩ c' ⟨e', rfl | rfl, hc'⟩ okm hokm' hokm''
    · exact hokm _ c c' hc hc'
    · exact absurd hokm'' (hne' c c' okm hc hc' hokm')
    · exact absurd hokm' (hne' c' c okm hc' hc hokm'')
    · exact hokm _ c c' hc hc'

theorem plainSealCrypto_sized : plainSealCrypto.kdf.Sized := by
  intro salt ikm prk h
  obtain rfl := Except.ok.inj h
  rfl

/-- The schedule of a key of zeros, and the two keys that seal its first segment. -/
structure PlainSchedule (s : Schedule) : Prop where
  cek : s.cek = List.replicate 32 0
  params : s.params = sealParams plainSealCrypto (List.replicate 32 0)
  crypto : s.crypto = plainSealCrypto
  payloadKey : s.state.payloadKey = [11, 112, 97, 121, 108, 111, 97, 100, 95, 107, 101, 121, 0, 2, 0, 1]
  nonceBase : s.state.nonceBase = some [10, 110, 111, 110, 99, 101, 95, 98, 97, 115, 101, 0]

theorem exists_plainSchedule : ∃ s : Schedule, PlainSchedule s := by
  have heval : (deriveSchedule (List.replicate 32 0)
      (sealParams plainSealCrypto (List.replicate 32 0)) [1] plainSealCrypto).map
        (fun state => (state.payloadKey, state.nonceBase)) =
      .ok ([11, 112, 97, 121, 108, 111, 97, 100, 95, 107, 101, 121, 0, 2, 0, 1],
        some [10, 110, 111, 110, 99, 101, 95, 98, 97, 115, 101, 0]) := by decide +kernel
  obtain ⟨state, hstate, heq⟩ := map_eq_ok.mp heval
  obtain ⟨hpayload, hnonce⟩ := Prod.mk.inj heq
  exact ⟨⟨_, _, _, _, state, hstate⟩, rfl, rfl, rfl, hpayload, hnonce⟩

/-- The first segment of an object of no bytes. -/
def plainInvocation : Invocation := .sealSegment 0 true [] none []

theorem PlainSchedule.run_ok {s : Schedule} (h : PlainSchedule s) :
    ∃ result, plainInvocation.run s.state = .ok result := by
  obtain ⟨state, hstate, hready⟩ := startSeal_ok s.cek s.objectId plainSealCrypto_lawful
    (show (List.replicate 32 0 : Bytes).length = SALT_LENGTH from rfl)
  have hderived := s.derived
  rw [h.params, h.crypto] at hderived
  obtain rfl := Except.ok.inj (hstate.symm.trans hderived)
  obtain ⟨sealed, hsealed⟩ := sealSegment_ok plainSealCrypto_lawful hready true []
    (show 0 < 2 ^ 63 by decide)
  exact ⟨.inl sealed, map_eq_ok.mpr ⟨sealed, hsealed, rfl⟩⟩

def plainPayloadKey : Derivation where
  kdf := plainSealCrypto.kdf
  protocolId := PROTOCOL_RO
  label := "payload_key"
  ikm := [List.replicate 32 0]
  info := rawFields (sealParams plainSealCrypto (List.replicate 32 0))
  length := 16

def plainEpochKey : Derivation where
  kdf := plainSealCrypto.kdf
  protocolId := PROTOCOL_RO
  label := "epoch_key"
  ikm := [[11, 112, 97, 121, 108, 111, 97, 100, 95, 107, 101, 121, 0, 2, 0, 1]]
  info := [bigEndian 8 0]
  length := 16

/-- The two secrets are of different lengths, and so are the two labels. -/
theorem secure_plain : Secure {plainPayloadKey, plainEpochKey} := by
  have hlength : (encodeFramed plainSealCrypto.kdf plainPayloadKey.extractParts).map List.length =
      .ok 59 := by decide +kernel
  have hlength' : (encodeFramed plainSealCrypto.kdf plainEpochKey.extractParts).map List.length =
      .ok 41 := by decide +kernel
  have hlabel : (encodeFramed plainSealCrypto.kdf plainPayloadKey.expandParts).map
      (fun info => (info.drop 13).head?) = .ok (some 11) := by decide +kernel
  have hlabel' : (encodeFramed plainSealCrypto.kdf plainEpochKey.expandParts).map
      (fun info => (info.drop 13).head?) = .ok (some 9) := by decide +kernel
  refine secure_pair plainSealCrypto_sized plainSealCrypto_sized ?_ ?_ ?_ ?_
  · have hshort : ∀ x ∈ plainPayloadKey.extractParts ++ plainPayloadKey.expandParts,
        x.length ≤ 0xFFFE := by decide +kernel
    exact fun x hx => hshort x (List.mem_append.mpr hx)
  · have hshort : ∀ x ∈ plainEpochKey.extractParts ++ plainEpochKey.expandParts,
        x.length ≤ 0xFFFE := by decide +kernel
    exact fun x hx => hshort x (List.mem_append.mpr hx)
  · intro x x' salt salt' prk hx hx' h h'
    obtain ⟨y, hy, hylen⟩ := map_eq_ok.mp hlength
    obtain ⟨y', hy', hylen'⟩ := map_eq_ok.mp hlength'
    obtain rfl := Except.ok.inj (hx.symm.trans hy)
    obtain rfl := Except.ok.inj (hx'.symm.trans hy')
    have heads := List.cons.inj (Except.ok.inj (h.trans h'.symm))
    rw [hylen, hylen'] at heads
    exact absurd heads.1 (by decide)
  · intro info info' prk prk' okm hinfo hinfo' h h'
    obtain ⟨y, hy, hyhead⟩ := map_eq_ok.mp hlabel
    obtain ⟨y', hy', hyhead'⟩ := map_eq_ok.mp hlabel'
    obtain rfl := Except.ok.inj (hinfo.symm.trans hy)
    obtain rfl := Except.ok.inj (hinfo'.symm.trans hy')
    have heads := congrArg List.head? (Except.ok.inj (h.trans h'.symm))
    have hhead : ∀ (z : Bytes) (b : UInt8), (z.drop 13).head? = some b →
        (((z.drop 13) ++ List.replicate 16 0).take 16).head? = some b := by
      intro z b hz
      cases hdrop : z.drop 13 with
      | nil => simp [hdrop] at hz
      | cons c rest => simpa [hdrop] using hz
    exact absurd ((hhead info 11 hyhead).symm.trans (heads.trans (hhead info' 9 hyhead')))
      (by decide)

theorem PlainSchedule.payloadKey_eq {s : Schedule} (h : PlainSchedule s) :
    s.payloadKey = plainPayloadKey := by
  simp only [Schedule.payloadKey, Schedule.ofCek, h.cek, h.params, h.crypto]
  rfl

theorem PlainSchedule.epochKey_eq {s : Schedule} (h : PlainSchedule s) :
    s.epochKey 0 = plainEpochKey := by
  simp only [Schedule.epochKey, h.payloadKey, h.params, h.crypto, Nat.zero_div]
  rfl

/-- With the suite in the plain: the first segment under a key of zeros uses a key and a
nonce, and an object of one byte is sealed with one call of the AEAD. -/
theorem seal_keys_and_nonces_plain :
    ([[1, 2], []] : List Bytes) = [[1, 2], []] ∧
      (∃ (s : Schedule) (key nonce : Bytes), plainInvocation.Uses s.state key nonce ∧
        s.params.salt = s.params.salt ∧ plainInvocation.index = plainInvocation.index ∧
        s.payloadKey.label = s.payloadKey.label) ∧
      ∃ calls : List AeadCall, (calls.map fun c => (c.key, c.nonce)).Nodup ∧
        concatAll (calls.map AeadCall.data) = [5] := by
  obtain ⟨s, hs⟩ := exists_plainSchedule
  have hsecure : Secure {s.payloadKey, s.epochKey 0, s.payloadKey, s.epochKey 0} := by
    rw [hs.payloadKey_eq, hs.epochKey_eq]
    simpa using secure_plain
  have hsecure' : Secure {s.payloadKey, s.payloadKey} := by
    rw [hs.payloadKey_eq]
    exact secure_plain.mono (by simp)
  have hmode : s.params.nonceMode = NONCE_DERIVED := by
    rw [hs.params]
    rfl
  have hparts : ([[1, 2], []] : List Bytes) = [[1, 2], []] := by
    refine seal_keys_and_nonces.1 plainSealCrypto.kdf [[1, 2], []] [[1, 2], []]
      [0, 2, 1, 2, 0, 0] plainSealCrypto_sized ?_ (by decide +kernel) (by decide +kernel)
    intro x hx
    have hshort : ∀ x ∈ ([[1, 2], []] ++ [[1, 2], []] : List Bytes), x.length ≤ 0xFFFE := by decide
    exact absurd (hshort x hx.1) (not_le.mpr hx.2)
  obtain ⟨result, hrun⟩ := hs.run_ok
  obtain ⟨key, nonce, huses⟩ := seal_keys_and_nonces.2.1.1 _ _ _ hrun
  obtain ⟨-, -, -, -, -, -, -, hsalt, hindex, -⟩ :=
    seal_keys_and_nonces.2.1.2 s s plainInvocation plainInvocation _ _ hmode hmode hsecure huses
      huses
  obtain ⟨sealed, hsealed⟩ : ∃ sealed, sealObject (List.replicate 32 0) [1] [5]
      (List.replicate 32 0) plainSealCrypto = .ok sealed :=
    (openObject_sealObject plainSealCrypto_lawful (by decide) (by decide) (by decide) (by decide)
      (by decide)).imp fun _ h => h.1
  obtain ⟨calls, -, hnodup, hcalls⟩ := seal_keys_and_nonces.2.2.2 (List.replicate 32 0) [1] [5]
    (List.replicate 32 0) plainSealCrypto
  exact ⟨hparts, ⟨s, key, nonce, huses, hsalt, hindex,
    seal_keys_and_nonces.2.2.1 s s _ _ _ .payload_key .payload_key hsecure'⟩, calls, hnodup,
    (hcalls sealed hsealed).1⟩

end WebcryptoMls
