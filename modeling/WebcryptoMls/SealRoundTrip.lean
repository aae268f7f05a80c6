import WebcryptoMls.SealBinding

/-!
# Sealing and opening again

With a suite whose primitives do what they are relied on for, sealing returns an
object for every plaintext there is a layout for. The rounds write each segment to a
place of its own, the header goes before all of them, and so opening finds
everything as it was computed.
-/
namespace WebcryptoMls
open Slices

/-- What is relied on of the primitives of a suite, and the sizes every suite has. -/
structure SealCrypto.Lawful (crypto : SealCrypto) : Prop where
  inverts : crypto.aead.Inverts crypto.tagLength
  encrypt : ∀ key nonce aad plaintext, key.length = crypto.keyLength →
    nonce.length = crypto.nonceLength →
      ∃ sealed, crypto.aead.encrypt key nonce aad plaintext = .ok sealed
  extract : ∀ salt ikm, salt.length = crypto.kdf.size →
    ∃ prk, crypto.kdf.extract salt ikm = .ok prk ∧ prk.length = crypto.kdf.size
  expand : ∀ prk info length, prk.length = crypto.kdf.size → length ≤ 255 * crypto.kdf.size →
    ∃ okm, crypto.kdf.expand prk info length = .ok okm ∧ okm.length = length
  size : 10 ≤ crypto.kdf.size
  keyLength : crypto.keyLength ≤ 255 * crypto.kdf.size
  nonceLength : 8 ≤ crypto.nonceLength ∧ crypto.nonceLength ≤ 255 * crypto.kdf.size
  tagLength : crypto.tagLength = META_TAG_LENGTH
  aeadId : 0 ≤ crypto.aeadId ∧ crypto.aeadId ≤ 0xFFFF
  kdfId : 0 ≤ crypto.kdfId ∧ crypto.kdfId ≤ 0xFFFF

variable {crypto : SealCrypto} {cek objectId plaintext salt : Bytes} {l : Layout}
  {state : SealState} {bytes : Bytes}

/-! ## The key derivation -/

theorem paddedSalt_ok (kdf : Kdf) {s : Bytes} (h : s.length ≤ kdf.size) :
    ∃ padded, paddedSalt kdf s = .ok padded ∧ padded.length = kdf.size := by
  unfold paddedSalt
  rw [if_neg (not_lt.mpr h)]
  refine ⟨_, rfl, ?_⟩
  rw [List.length_append, List.length_replicate]
  omega

theorem length_LP_SALT : LP_SALT.length = 10 := by decide +kernel

theorem length_encodeText_PROTOCOL_RO : (encodeText PROTOCOL_RO).length = 10 := by decide +kernel

theorem lh_ok (hc : crypto.Lawful) (x : Bytes) :
    ∃ digest, lh x crypto.kdf = .ok digest ∧ digest.length = crypto.kdf.size := by
  obtain ⟨padded, hpadded, hlen⟩ := paddedSalt_ok crypto.kdf (length_LP_SALT ▸ hc.size)
  obtain ⟨digest, hdigest, hsize⟩ := hc.extract padded x hlen
  refine ⟨digest, ?_, hsize⟩
  unfold lh
  rw [hpadded, ok_bind, hdigest]

theorem frame_ok (hc : crypto.Lawful) (x : Bytes) : ∃ framed, frame x crypto.kdf = .ok framed := by
  unfold frame
  by_cases hshort : x.length ≤ 0xFFFE
  · rw [if_pos hshort]
    exact ⟨_, rfl⟩
  · obtain ⟨digest, hdigest, -⟩ := lh_ok hc x
    rw [if_neg hshort, hdigest]
    exact ⟨_, rfl⟩

theorem encodeFramed_ok (hc : crypto.Lawful) (parts : List Bytes) :
    ∃ framed, encodeFramed crypto.kdf parts = .ok framed := by
  choose framed hframed using frame_ok hc
  unfold encodeFramed
  rw [mapM_eq_ok fun part _ => hframed part]
  exact ⟨_, rfl⟩

theorem sealKdf_ok (hc : crypto.Lawful) (label : String) (ikm info : List Bytes) {length : ℕ}
    (hlength : length ≤ 255 * crypto.kdf.size) :
    ∃ okm, sealKdf crypto.kdf PROTOCOL_RO label ikm info length = .ok okm ∧
      okm.length = length := by
  obtain ⟨input, hinput⟩ :=
    encodeFramed_ok hc (encodeText PROTOCOL_RO :: encodeText label :: ikm)
  obtain ⟨padded, hpadded, hlen⟩ :=
    paddedSalt_ok crypto.kdf (length_encodeText_PROTOCOL_RO ▸ hc.size)
  obtain ⟨prk, hprk, hsize⟩ := hc.extract padded input hlen
  obtain ⟨expandInfo, hinfo⟩ := encodeFramed_ok hc
    (encodeText PROTOCOL_RO :: encodeText label :: (info ++ [uint16be length]))
  obtain ⟨okm, hokm, hlength⟩ := hc.expand prk expandInfo length hsize hlength
  refine ⟨okm, ?_, hlength⟩
  unfold sealKdf
  rw [hinput, ok_bind, hpadded, ok_bind, hprk, ok_bind, hinfo, ok_bind, hokm]

/-! ## The schedule and the segments -/

/-- A schedule with a nonce base and keys of the lengths of its suite. -/
structure SealState.Ready (state : SealState) (crypto : SealCrypto) (salt : Bytes) : Prop where
  suite : state.crypto = crypto
  params : state.params = sealParams crypto salt
  commitment : state.commitment.length = crypto.kdf.size
  nonceBase : ∃ nonceBase, state.nonceBase = some nonceBase ∧ nonceBase.length = crypto.nonceLength

theorem validateParams_ok (hc : crypto.Lawful) (hsalt : salt.length = SALT_LENGTH) :
    validateParams (sealParams crypto salt) = .ok () := by
  have haead : 0 ≤ (sealParams crypto salt).aeadId ∧ (sealParams crypto salt).aeadId ≤ 0xFFFF :=
    hc.aeadId
  have hkdf : 0 ≤ (sealParams crypto salt).kdfId ∧ (sealParams crypto salt).kdfId ≤ 0xFFFF :=
    hc.kdfId
  have hsnap : (sealParams crypto salt).snapId = 0x0003 := rfl
  have hmax : (sealParams crypto salt).segmentMax = 65536 := rfl
  have hmode : (sealParams crypto salt).nonceMode = 0x01 := rfl
  have hepoch : (sealParams crypto salt).epochLength = 10 := rfl
  have hlen : (sealParams crypto salt).salt.length = SALT_LENGTH := hsalt
  unfold validateParams
  rw [if_neg (by omega), if_neg (by omega), if_neg (by omega), if_neg (by omega),
    if_neg (by omega), if_neg (by omega), if_neg (not_not.mpr hlen)]
  rfl

theorem startSeal_ok (cek objectId : Bytes) (hc : crypto.Lawful) (hsalt : salt.length = SALT_LENGTH) :
    ∃ state, startSeal cek (sealParams crypto salt) objectId crypto = .ok state ∧
      state.Ready crypto salt := by
  have hsize : crypto.kdf.size ≤ 255 * crypto.kdf.size := Nat.le_mul_of_pos_left _ (by omega)
  let fields := rawFields (sealParams crypto salt)
  obtain ⟨commitment, hcommitment, hlen⟩ := sealKdf_ok hc "commit" [cek] (fields ++ [objectId]) hsize
  obtain ⟨payloadKey, hpayloadKey, -⟩ := sealKdf_ok hc "payload_key" [cek] fields hc.keyLength
  obtain ⟨snapKey, hsnapKey, -⟩ := sealKdf_ok hc "acc_key" [cek] fields hsize
  obtain ⟨nonceBase, hnonceBase, hnonce⟩ :=
    sealKdf_ok hc "nonce_base" [cek] fields hc.nonceLength.2
  refine ⟨SealState.mk (sealParams crypto salt) commitment payloadKey snapKey (some nonceBase) crypto,
    ?_, rfl, rfl, hlen, nonceBase, rfl, hnonce⟩
  have hpid : (sealParams crypto salt).protocolId = PROTOCOL_RO := rfl
  have hmode : (sealParams crypto salt).nonceMode = NONCE_DERIVED := rfl
  unfold startSeal deriveSchedule
  simp only [validateParams_ok hc hsalt, ok_bind, hpid, hmode, if_true]
  rw [hcommitment, ok_bind, hpayloadKey, ok_bind, hsnapKey, ok_bind, hnonceBase]
  rfl

theorem uint64be_ok {n : ℕ} (h : n < 2 ^ 64) :
    ∃ bytes, uint64be n = .ok bytes ∧ bytes.length = 8 := by
  unfold uint64be
  rw [if_neg (by omega)]
  exact ⟨_, rfl, length_bigEndian 8 n⟩

theorem derivedNonce_ok {nonceBase : Bytes} {index : ℕ} (isFinal : Bool)
    (hbase : 8 ≤ nonceBase.length) (hindex : index < 2 ^ 63) :
    ∃ nonce, derivedNonce nonceBase index isFinal = .ok nonce ∧
      nonce.length = nonceBase.length := by
  have hmixed : 2 * index + isFinal.toNat < 2 ^ 64 := by
    have := Bool.toNat_le isFinal
    omega
  obtain ⟨tail, htail, hlen⟩ := uint64be_ok hmixed
  unfold derivedNonce
  rw [if_neg (by omega), if_neg (by omega)]
  simp only [htail, ok_bind]
  refine ⟨_, rfl, ?_⟩
  rw [List.length_append, List.length_take, List.length_zipWith, List.length_drop]
  omega

theorem sealSegment_ok (hc : crypto.Lawful) (hstate : state.Ready crypto salt) {index : ℕ}
    (isFinal : Bool) (part : Bytes) (hindex : index < 2 ^ 63) :
    ∃ sealed, sealSegment state index isFinal part none [] = .ok sealed := by
  obtain ⟨hcrypto, hparams, -, nonceBase, hbase, hlen⟩ := hstate
  subst hcrypto
  have hmode : state.params.nonceMode = NONCE_DERIVED := by rw [hparams]; rfl
  have hpid : state.params.protocolId = PROTOCOL_RO := by rw [hparams]; rfl
  obtain ⟨nonce, hnonce, hnonceLen⟩ :=
    derivedNonce_ok isFinal (hlen ▸ hc.nonceLength.1) hindex
  have hsegmentNonce : segmentNonce state index isFinal none = .ok nonce := by
    unfold segmentNonce
    simp only [if_pos hmode, hbase, hnonce, ok_bind]
    rw [if_neg (not_not.mpr (hnonceLen.trans hlen))]
    rfl
  obtain ⟨epochIndex, hepochIndex, -⟩ :=
    uint64be_ok (lt_of_le_of_lt (Nat.div_le_self index (2 ^ state.params.epochLength))
      (show index < 2 ^ 64 by omega))
  obtain ⟨key, hkey, hkeyLen⟩ :=
    sealKdf_ok hc "epoch_key" [state.payloadKey] [epochIndex] hc.keyLength
  have hsegmentKey : segmentKey state index = .ok key := by
    unfold segmentKey
    rw [if_neg (by omega), hepochIndex, ok_bind, hpid, hkey]
  have haad : segmentAad state index isFinal [] = .ok [] := by
    unfold segmentAad
    rw [if_neg (by omega), if_pos hmode]
    rfl
  obtain ⟨sealed, hsealed⟩ := hc.encrypt key nonce [] part hkeyLen (hnonceLen.trans hlen)
  unfold sealSegment
  rw [hsegmentNonce, ok_bind, hsegmentKey, ok_bind, haad, ok_bind, hsealed]
  exact ⟨_, rfl⟩

theorem segmentLeaf_ok (hc : crypto.Lawful) (hcrypto : state.crypto = crypto)
    (ciphertext tag : Bytes) : ∃ digest, digest.length = crypto.kdf.size ∧
      segmentLeaf state ciphertext tag = .ok (digest ++ tag) := by
  subst hcrypto
  obtain ⟨digest, hdigest, hlen⟩ := lh_ok hc ciphertext
  refine ⟨digest, hlen, ?_⟩
  unfold segmentLeaf
  rw [hdigest]
  simp [concatAll, pure, Except.pure]

theorem epochHead_ok (hc : crypto.Lawful) (hstate : state.Ready crypto salt) (run : Bytes) :
    ∃ head, epochHead state run = .ok head ∧ head.length = crypto.kdf.size := by
  obtain ⟨hcrypto, hparams, -, -⟩ := hstate
  subst hcrypto
  have hpid : state.params.protocolId = PROTOCOL_RO := by rw [hparams]; rfl
  obtain ⟨digest, hdigest, -⟩ := lh_ok hc run
  obtain ⟨head, hhead, hlen⟩ := sealKdf_ok hc "snap_epoch" [state.snapKey] [digest]
    (Nat.le_mul_of_pos_left state.crypto.kdf.size (by omega))
  refine ⟨head, ?_, hlen⟩
  unfold epochHead
  rw [hdigest, ok_bind, hpid, hhead]

theorem epochTreeRoot_ok (hc : crypto.Lawful) (hstate : state.Ready crypto salt) {nSeg : ℕ}
    (hnSeg : nSeg < 2 ^ 64) (heads : Bytes) :
    ∃ root, epochTreeRoot state nSeg heads = .ok root ∧ root.length = crypto.kdf.size := by
  obtain ⟨hcrypto, hparams, -, -⟩ := hstate
  subst hcrypto
  have hpid : state.params.protocolId = PROTOCOL_RO := by rw [hparams]; rfl
  obtain ⟨digest, hdigest, -⟩ := lh_ok hc heads
  obtain ⟨count, hcount, -⟩ := uint64be_ok hnSeg
  obtain ⟨root, hroot, hlen⟩ := sealKdf_ok hc "snap_epoch_root" [state.snapKey]
    [state.commitment, count, digest] (Nat.le_mul_of_pos_left state.crypto.kdf.size (by omega))
  refine ⟨root, ?_, hlen⟩
  unfold epochTreeRoot
  rw [hdigest, ok_bind, hcount, ok_bind, hpid, hroot]

/-! ## The rounds -/

/-- The plaintext of a segment. -/
def partOf (plaintext : Bytes) (i : ℕ) : Bytes :=
  slice plaintext (i * SEGMENT_MAX) ((i + 1) * SEGMENT_MAX)

/-- A segment is in its place. -/
def Stored (state : SealState) (l : Layout) (plaintext bytes : Bytes) (i : ℕ) : Prop :=
  ∃ sealed, sealSegment state i (i == l.nSeg - 1) (partOf plaintext i) none [] = .ok sealed ∧
    blockOf l bytes i = sealed.ciphertext ∧
    segmentLeaf state sealed.ciphertext sealed.tag = .ok (leafBytes l bytes i)

/-- What holds after the rounds of the first segments. -/
structure Rounds (state : SealState) (l : Layout) (plaintext : Bytes) (k : ℕ) (bytes : Bytes) :
    Prop where
  length : bytes.length = l.totalSize
  gap : slice bytes l.headerSize l.firstBlockOffset =
    List.replicate (l.firstBlockOffset - l.headerSize) 0
  stored : ∀ i < k, Stored state l plaintext bytes i

theorem length_partOf {i : ℕ} (h : i * SEGMENT_MAX < plaintext.length) :
    i * SEGMENT_MAX + (partOf plaintext i).length =
      min (i * SEGMENT_MAX + SEGMENT_MAX) plaintext.length := by
  unfold partOf
  rw [← slice_min_length, length_slice (min_le_right ..), Nat.succ_mul]
  omega

/-- A slice stays when it is beside what is written. -/
theorem Stored.of_slices {bytes' : Bytes} {i : ℕ} (h : Stored state l plaintext bytes i)
    (hblock : blockOf l bytes' i = blockOf l bytes i)
    (hleaf : leafBytes l bytes' i = leafBytes l bytes i) : Stored state l plaintext bytes' i := by
  obtain ⟨sealed, hsealed, hciphertext, hmeta⟩ := h
  exact ⟨sealed, hsealed, hblock.trans hciphertext, hleaf ▸ hmeta⟩

theorem sealRound_ok (hc : crypto.Lawful) (hstate : state.Ready crypto salt)
    (hfacts : LayoutFacts (layoutParams plaintext.length crypto) l) {i : ℕ} (hi : i < l.nSeg)
    (h : Rounds state l plaintext i bytes) :
    ∃ bytes', sealRound state l (layoutParams plaintext.length crypto) plaintext bytes i =
      .ok bytes' ∧ Rounds state l plaintext (i + 1) bytes' := by
  have hstart : i * SEGMENT_MAX < plaintext.length := (hfacts.seg i).mp hi
  have hindex : i < 2 ^ 63 := by
    have hmax : l.nSeg ≤ 2 ^ 31 := hfacts.nSeg_le
    omega
  have htotal : l.totalSize = l.firstBlockOffset + plaintext.length := hfacts.total
  have hgap := hfacts.gap
  have hheader := hfacts.header
  have hmetaLen : l.metaLen = crypto.kdf.size + META_TAG_LENGTH := hfacts.metaLen
  have hleaves : i * l.metaLen + l.metaLen ≤ l.nSeg * l.metaLen := by
    rw [← Nat.succ_mul]
    exact Nat.mul_le_mul_right _ hi
  -- The segment, its block and its leaf.
  obtain ⟨sealed, hsealed⟩ := sealSegment_ok hc hstate (i == l.nSeg - 1) (partOf plaintext i) hindex
  obtain ⟨hciphertext, htag, -⟩ := openSegment_sealSegment (hstate.suite ▸ hc.inverts) hsealed
  rw [hstate.suite, hc.tagLength] at htag
  have hend : i * SEGMENT_MAX + sealed.ciphertext.length ≤ plaintext.length := by
    rw [hciphertext, length_partOf hstart]
    exact min_le_right ..
  obtain ⟨digest, hdigest, hleaf⟩ := segmentLeaf_ok hc hstate.suite sealed.ciphertext sealed.tag
  have hleafLen : (digest ++ sealed.tag).length = l.metaLen := by
    rw [List.length_append, hdigest, htag, hmetaLen]
  obtain ⟨width, hrange⟩ : ∃ width, blockRange l (layoutParams plaintext.length crypto) i =
      .ok ⟨l.firstBlockOffset + i * SEGMENT_MAX, width⟩ := ⟨_, blockRange_eq_ok hfacts hi⟩
  -- The two writes.
  let written := overwrite bytes sealed.ciphertext (l.firstBlockOffset + i * SEGMENT_MAX)
  let bytes' := overwrite written (digest ++ sealed.tag) (l.metaOffset + i * l.metaLen)
  have hfit : l.firstBlockOffset + i * SEGMENT_MAX + sealed.ciphertext.length ≤ bytes.length := by
    rw [h.length]
    omega
  have hwritten : written.length = bytes.length := length_overwrite hfit
  have hfit' : l.metaOffset + i * l.metaLen + (digest ++ sealed.tag).length ≤ written.length := by
    rw [hwritten, h.length, hleafLen]
    omega
  have hbeside : ∀ start stop, (stop ≤ l.metaOffset + i * l.metaLen ∨
      l.metaOffset + i * l.metaLen + l.metaLen ≤ start) →
      slice bytes' start stop = slice written start stop := by
    intro start stop hdisjoint
    exact slice_overwrite_of_disjoint hfit' (by rwa [hleafLen])
  have hbefore : ∀ start stop, stop ≤ l.firstBlockOffset + i * SEGMENT_MAX →
      slice written start stop = slice bytes start stop :=
    fun start stop hstop => slice_overwrite_of_disjoint hfit (.inl hstop)
  refine ⟨bytes', ?_, ?_, ?_, ?_⟩
  · unfold sealRound
    dsimp only
    rw [slice_min_length, ← Nat.succ_mul]
    change (sealSegment state i (i == l.nSeg - 1) (partOf plaintext i) none [] >>= _) = _
    rw [hsealed, ok_bind, hrange, ok_bind, setBytes_ok hfit, ok_bind, hleaf, ok_bind]
    exact setBytes_ok hfit'
  · exact (length_overwrite hfit').trans (hwritten.trans h.length)
  · rw [hbeside _ _ (.inr (by omega)), hbefore _ _ (by omega), h.gap]
  · intro j hj
    by_cases hlast : j = i
    · subst hlast
      refine ⟨sealed, hsealed, ?_, ?_⟩
      · unfold blockOf
        rw [hbeside _ _ (.inr (by omega)), ← slice_min_length, hwritten, h.length, htotal,
          Nat.add_min_add_left, Nat.succ_mul, ← length_partOf hstart, ← hciphertext, ← Nat.add_assoc]
        exact slice_overwrite_self (by omega)
      · rw [hleaf]
        have hself : slice bytes' (l.metaOffset + j * l.metaLen)
            (l.metaOffset + j * l.metaLen + (digest ++ sealed.tag).length) = digest ++ sealed.tag :=
          slice_overwrite_self (by omega)
        rw [hleafLen] at hself
        exact congrArg Except.ok hself.symm
    · have hlt : j < i := by omega
      have hblocks : (j + 1) * SEGMENT_MAX ≤ i * SEGMENT_MAX := Nat.mul_le_mul_right _ hlt
      have hmetas : j * l.metaLen + l.metaLen ≤ i * l.metaLen := by
        rw [← Nat.succ_mul]
        exact Nat.mul_le_mul_right _ hlt
      refine (h.stored j hlt).of_slices ?_ ?_
      · unfold blockOf
        rw [hbeside _ _ (.inr (by omega)), hbefore _ _ (by omega)]
      · simp only [leafBytes, metaRange]
        rw [hbeside _ _ (.inl (by omega)), hbefore _ _ (by omega)]

/-! ## The header -/

/-- What goes before the leaves is written over zeros: the salt, the commitment, the
root and the heads. -/
theorem header_ok {commitment root heads : Bytes}
    (hfacts : LayoutFacts (layoutParams plaintext.length crypto) l)
    (hlen : bytes.length = l.totalSize) (hsalt : salt.length = 32)
    (hcommitment : commitment.length = crypto.kdf.size) (hroot : root.length = crypto.kdf.size)
    (hheads : heads.length = l.nEp * crypto.kdf.size) :
    ∃ bytes', (do
      let bytes ← setBytes bytes salt 0
      let bytes ← setBytes bytes commitment 32
      let bytes ← setBytes bytes root (32 + crypto.kdf.size)
      setBytes bytes heads l.epochHeadsOffset) = .ok bytes' ∧
      bytes'.length = l.totalSize ∧ slice bytes' 0 32 = salt ∧
      slice bytes' 32 (32 + crypto.kdf.size) = commitment ∧
      slice bytes' (32 + crypto.kdf.size) (32 + 2 * crypto.kdf.size) = root ∧
      headsOf l bytes' = heads ∧
      ∀ start stop, l.metaOffset ≤ start → slice bytes' start stop = slice bytes start stop := by
  have hoffset : l.epochHeadsOffset = 32 + 2 * crypto.kdf.size := hfacts.heads
  have hmeta : l.metaOffset = l.epochHeadsOffset + l.nEp * crypto.kdf.size := hfacts.metaOffset
  have hheader := hfacts.header
  have hgap := hfacts.gap
  have htotal := hfacts.total
  have hfit₁ : 0 + salt.length ≤ bytes.length := by omega
  let bytes₁ := overwrite bytes salt 0
  have hlen₁ : bytes₁.length = l.totalSize := (length_overwrite hfit₁).trans hlen
  have hfit₂ : 32 + commitment.length ≤ bytes₁.length := by omega
  let bytes₂ := overwrite bytes₁ commitment 32
  have hlen₂ : bytes₂.length = l.totalSize := (length_overwrite hfit₂).trans hlen₁
  have hfit₃ : 32 + crypto.kdf.size + root.length ≤ bytes₂.length := by omega
  let bytes₃ := overwrite bytes₂ root (32 + crypto.kdf.size)
  have hlen₃ : bytes₃.length = l.totalSize := (length_overwrite hfit₃).trans hlen₂
  have hfit₄ : l.epochHeadsOffset + heads.length ≤ bytes₃.length := by omega
  let bytes₄ := overwrite bytes₃ heads l.epochHeadsOffset
  have hlen₄ : bytes₄.length = l.totalSize := (length_overwrite hfit₄).trans hlen₃
  refine ⟨bytes₄, ?_, hlen₄, ?_, ?_, ?_, ?_, ?_⟩
  · rw [setBytes_ok hfit₁, ok_bind, setBytes_ok hfit₂, ok_bind, setBytes_ok hfit₃, ok_bind,
      setBytes_ok hfit₄]
  · have hself : slice bytes₁ 0 (0 + salt.length) = salt := slice_overwrite_self (by omega)
    rw [hsalt] at hself
    rw [slice_overwrite_of_disjoint hfit₄ (.inl (by omega)),
      slice_overwrite_of_disjoint hfit₃ (.inl (by omega)),
      slice_overwrite_of_disjoint hfit₂ (.inl (by omega)), hself]
  · have hself : slice bytes₂ 32 (32 + commitment.length) = commitment :=
      slice_overwrite_self (by omega)
    rw [hcommitment] at hself
    rw [slice_overwrite_of_disjoint hfit₄ (.inl (by omega)),
      slice_overwrite_of_disjoint hfit₃ (.inl (by omega)), hself]
  · have hself : slice bytes₃ (32 + crypto.kdf.size) (32 + crypto.kdf.size + root.length) = root :=
      slice_overwrite_self (by omega)
    rw [hroot, Nat.add_assoc, ← Nat.two_mul] at hself
    rw [slice_overwrite_of_disjoint hfit₄ (.inl (by omega)), hself]
  · have hself : slice bytes₄ l.epochHeadsOffset (l.epochHeadsOffset + heads.length) = heads :=
      slice_overwrite_self (by omega)
    rwa [hheads, ← hmeta] at hself
  · intro start stop hstart
    rw [slice_overwrite_of_disjoint hfit₄ (.inr (by omega)),
      slice_overwrite_of_disjoint hfit₃ (.inr (by omega)),
      slice_overwrite_of_disjoint hfit₂ (.inr (by omega)),
      slice_overwrite_of_disjoint hfit₁ (.inr (by omega))]

/-! ## The object -/

theorem layout_ok (crypto : SealCrypto) (hpos : plaintext.length ≠ 0)
    (hmax : plaintext.length ≤ MAX_SEGMENTS * SEGMENT_MAX) :
    ∃ l, layout (layoutParams plaintext.length crypto) = .ok l := by
  have hsafe : (MAX_SEGMENTS * SEGMENT_MAX : ℕ) ≤ MAX_SAFE_INTEGER := by decide
  have hseg : ¬MAX_SEGMENTS < ceilDiv plaintext.length SEGMENT_MAX := by
    rw [lt_ceilDiv_iff SEGMENT_MAX_pos]
    omega
  have hrange : 0 < (layoutParams plaintext.length crypto).plaintextLength ∧
      (layoutParams plaintext.length crypto).plaintextLength ≤ MAX_SAFE_INTEGER := by
    change 0 < (plaintext.length : ℤ) ∧ (plaintext.length : ℤ) ≤ MAX_SAFE_INTEGER
    omega
  unfold layout
  rw [if_neg (not_not.mpr hrange)]
  exact ⟨_, if_neg hseg⟩

/-- A segment in its place passes the check of its leaf. -/
theorem Stored.leaf (hc : crypto.Lawful) (hcrypto : state.crypto = crypto)
    (hfacts : LayoutFacts (layoutParams plaintext.length crypto) l) {i : ℕ}
    (h : Stored state l plaintext bytes i) :
    ∃ sealed, sealSegment state i (i == l.nSeg - 1) (partOf plaintext i) none [] = .ok sealed ∧
      blockOf l bytes i = sealed.ciphertext ∧ tagBytes l crypto.kdf.size bytes i = sealed.tag ∧
      segmentLeaf state (blockOf l bytes i) (tagBytes l crypto.kdf.size bytes i) =
        .ok (leafBytes l bytes i) := by
  obtain ⟨sealed, hsealed, hblock, hleaf⟩ := h
  obtain ⟨digest, hdigest, hcat⟩ := segmentLeaf_ok hc hcrypto sealed.ciphertext sealed.tag
  have hbytes : leafBytes l bytes i = digest ++ sealed.tag :=
    Except.ok.inj (hleaf.symm.trans hcat)
  have htag : tagBytes l crypto.kdf.size bytes i = sealed.tag := by
    obtain ⟨-, hlen, -⟩ := openSegment_sealSegment (hcrypto ▸ hc.inverts) hsealed
    rw [hcrypto, hc.tagLength] at hlen
    rw [tagBytes_eq hfacts, hbytes, ← hdigest, ← hlen, slice_append_right]
  refine ⟨sealed, hsealed, hblock, htag, ?_⟩
  rw [hblock, htag, hleaf]

theorem flatten_partOf (hfacts : LayoutFacts (layoutParams plaintext.length crypto) l) :
    concatAll ((List.range l.nSeg).map (partOf plaintext)) = plaintext := by
  have hend : plaintext.length ≤ l.nSeg * SEGMENT_MAX :=
    not_lt.mp (mt (hfacts.seg l.nSeg).mpr (lt_irrefl _))
  have hall := flatten_slices plaintext 0 SEGMENT_MAX l.nSeg
  simp only [Nat.zero_add] at hall
  unfold concatAll
  rw [← slice_min_length, min_eq_right hend, slice_all] at hall
  exact hall

theorem rounds_zero (hfacts : LayoutFacts (layoutParams plaintext.length crypto) l) :
    Rounds state l plaintext 0 (List.replicate l.totalSize 0) := by
  refine ⟨List.length_replicate, ?_, fun i hi => by omega⟩
  have htotal := hfacts.total
  unfold slice
  rw [List.drop_replicate, List.take_replicate]
  congr 1
  omega

/-- Opening what was sealed returns the plaintext. -/
theorem openObject_sealObject (hc : crypto.Lawful) (hcek : cek.length = CEK_LENGTH)
    (hid : 1 ≤ objectId.length ∧ objectId.length ≤ 255) (hpos : plaintext.length ≠ 0)
    (hmax : plaintext.length ≤ MAX_SEGMENTS * SEGMENT_MAX) (hsalt : salt.length = SALT_LENGTH) :
    ∃ sealed, sealObject cek objectId plaintext salt crypto = .ok sealed ∧
      openObject cek objectId sealed.bytes
        { snapshot := sealed.snapshot, plaintextLength := plaintext.length } crypto =
          .ok plaintext := by
  obtain ⟨l, hl⟩ := layout_ok crypto hpos hmax
  have hfacts := layout_eq_ok SEGMENT_MAX_pos hl
  obtain ⟨state, hstart, hready⟩ := startSeal_ok cek objectId hc hsalt
  obtain ⟨bytes, hrounds, hr⟩ := foldlM_range_ok (P := Rounds state l plaintext)
    (rounds_zero hfacts) fun i hi b hb => sealRound_ok hc hready hfacts hi hb
  choose head hhead hheadLen using fun e => epochHead_ok hc hready (runOf l bytes e)
  have hheads : ((List.range l.nEp).mapM fun e =>
      epochHead state (concatAll ((epochSegments l e).map (leafBytes l bytes)))) =
        .ok ((List.range l.nEp).map head) := by
    refine mapM_eq_ok fun e he => ?_
    rw [concatAll_epochSegments hfacts rfl (List.mem_range.mp he), hhead]
  have hnSeg : l.nSeg < 2 ^ 64 := lt_of_le_of_lt hfacts.nSeg_le (by decide)
  obtain ⟨root, hroot, hrootLen⟩ :=
    epochTreeRoot_ok hc hready hnSeg (concatAll ((List.range l.nEp).map head))
  have hheadsLen : (concatAll ((List.range l.nEp).map head)).length = l.nEp * crypto.kdf.size :=
    length_flatten_range fun e _ => hheadLen e
  obtain ⟨bytes', hheader, hlen, hsalt', hcommitment, hstored, hallHeads, hbeside⟩ :=
    header_ok hfacts hr.length hsalt hready.commitment hrootLen hheadsLen
  refine ⟨{ bytes := bytes', snapshot := root, salt := salt }, ?_, ?_⟩
  · obtain ⟨b₁, h₁, hheader⟩ := bind_eq_ok.mp hheader
    obtain ⟨b₂, h₂, hheader⟩ := bind_eq_ok.mp hheader
    obtain ⟨b₃, h₃, h₄⟩ := bind_eq_ok.mp hheader
    unfold sealObject assertCekLength
    rw [if_neg (not_not.mpr hcek), if_neg hpos, if_neg (by omega)]
    simp only [pure, Except.pure, ok_bind]
    rw [hstart, ok_bind, hl, ok_bind, hrounds, ok_bind, hheads, ok_bind, hroot, ok_bind, h₁, ok_bind,
      h₂, ok_bind, h₃, ok_bind, h₄]
    rfl
  · have hmetaOffset := hfacts.metaOffset
    have hheaderSize := hfacts.header
    have hgap := hfacts.gap
    have hsegments : ∀ i < l.nSeg, Stored state l plaintext bytes' i := by
      intro i hi
      refine (hr.stored i hi).of_slices (hbeside _ _ ?_) (hbeside _ _ ?_)
      · omega
      · exact Nat.le_add_right ..
    have hverified : Verified state l crypto.kdf.size root bytes' := by
      refine ⟨hlen, ?_, ?_, ?_, hallHeads ▸ hroot, hstored⟩
      · rw [isZeroRegion_iff, hbeside _ _ (by omega), hr.gap]
      · intro i hi
        obtain ⟨-, -, -, -, hleaf⟩ := (hsegments i hi).leaf hc hready.suite hfacts
        exact hleaf
      · intro e he
        have hrun : runOf l bytes' e = runOf l bytes e := hbeside _ _ (Nat.le_add_right ..)
        have hstop : l.epochHeadsOffset + (e + 1) * crypto.kdf.size ≤ l.metaOffset := by
          rw [hmetaOffset]
          exact Nat.add_le_add_left (Nat.mul_le_mul_right _ he) _
        have hslice : headBytes l crypto.kdf.size bytes' e = head e := by
          unfold headBytes
          rw [← slice_slice bytes' hstop]
          change slice (headsOf l bytes') _ _ = _
          rw [hallHeads]
          exact slice_flatten_range (fun e _ => hheadLen e) he
        rw [hrun, hhead, hslice]
    have hopen : startOpen cek (sealParams crypto salt) objectId state.commitment crypto =
        .ok state := by
      unfold startOpen
      unfold startSeal at hstart
      rw [hstart, ok_bind, if_neg (by simp)]
      rfl
    have hparts : (List.range l.nSeg).mapM
        (openStored state l (layoutParams plaintext.length crypto) bytes') =
          .ok ((List.range l.nSeg).map (partOf plaintext)) := by
      refine mapM_eq_ok fun i hi => ?_
      have hi := List.mem_range.mp hi
      obtain ⟨sealed, hsealed, hblock, htag, -⟩ := (hsegments i hi).leaf hc hready.suite hfacts
      obtain ⟨-, -, hsegment⟩ := openSegment_sealSegment (hready.suite ▸ hc.inverts) hsealed
      unfold openStored
      rw [blockBytes_eq_ok hfacts rfl hlen hi, ok_bind, hblock]
      exact htag ▸ hsegment
    refine openObject_eq_ok.mpr ⟨hcek, hid.1, hid.2, l, state, _, hl, ?_, hverified, hparts,
      (flatten_partOf hfacts).symm⟩
    rw [hsalt', hcommitment, hopen]

/-- Sealed objects open to what was sealed, and nothing else opens in their place. -/
theorem sealed_object_opens_alone (crypto : SealCrypto) :
    (crypto.Lawful → ∀ cek objectId plaintext salt : Bytes, cek.length = CEK_LENGTH →
      1 ≤ objectId.length ∧ objectId.length ≤ 255 → plaintext.length ≠ 0 →
      plaintext.length ≤ MAX_SEGMENTS * SEGMENT_MAX → salt.length = SALT_LENGTH →
      ∃ sealed, sealObject cek objectId plaintext salt crypto = .ok sealed ∧
        openObject cek objectId sealed.bytes
          { snapshot := sealed.snapshot, plaintextLength := plaintext.length } crypto =
            .ok plaintext) ∧
    ∀ (cek objectId bytes bytes' : Bytes) (ref : ObjectRef) (plaintext plaintext' : Bytes),
      CollisionFree (lh · crypto.kdf)
        (lhInputs ref crypto bytes ∪ lhInputs ref crypto bytes') →
      CollisionFree (KdfInput.derive crypto.kdf)
        ({input | KdfInputs cek objectId ref crypto bytes input} ∪
          {input | KdfInputs cek objectId ref crypto bytes' input}) →
      openObject cek objectId bytes ref crypto = .ok plaintext →
      openObject cek objectId bytes' ref crypto = .ok plaintext' → bytes = bytes' :=
  ⟨fun hc _ _ _ _ hcek hid hpos hmax hsalt => openObject_sealObject hc hcek hid hpos hmax hsalt,
    fun _ _ _ _ _ _ _ hlh hkdf h h' => openObject_unique h h' hlh hkdf⟩

/-! ## A suite in the plain

Nothing is encrypted, a digest is the length of what it is of, and a derived key
starts with the length of its label. That tells the inputs of a one-byte object
apart. -/

def plainAead : Aead where
  encrypt _ _ _ plaintext := .ok (plaintext ++ List.replicate 16 0)
  decrypt _ _ _ sealed :=
    if sealed.length < 16 then .error attachmentError else .ok (sealed.take (sealed.length - 16))

def plainSealCrypto : SealCrypto where
  aead := plainAead
  kdf := {
    extract := fun _ ikm => .ok (UInt8.ofNat ikm.length :: List.replicate 31 0)
    expand := fun _ info length => .ok ((info.drop 13 ++ List.replicate length 0).take length)
    size := 32 }
  aeadId := 1
  kdfId := 1
  keyLength := 16
  nonceLength := 12
  tagLength := 16

theorem plainSealCrypto_lawful : plainSealCrypto.Lawful where
  inverts := by
    intro key nonce aad plaintext sealed h
    obtain rfl := Except.ok.inj h
    refine ⟨by simp [plainSealCrypto], ?_⟩
    simp [plainSealCrypto, plainAead]
  encrypt := fun _ _ _ _ _ _ => ⟨_, rfl⟩
  extract := fun _ _ _ => ⟨_, rfl, rfl⟩
  expand := by
    intro prk info length _ _
    refine ⟨_, rfl, ?_⟩
    rw [List.length_take, List.length_append, List.length_replicate]
    omega
  size := by decide
  keyLength := by decide
  nonceLength := by decide
  tagLength := rfl
  aeadId := by decide
  kdfId := by decide

theorem head?_of_lh {x digest : Bytes} (h : lh x plainSealCrypto.kdf = .ok digest) :
    digest.head? = some (UInt8.ofNat x.length) := by
  obtain ⟨salt, -, h⟩ := bind_eq_ok.mp h
  obtain rfl := Except.ok.inj h
  rfl

/-- A derived key starts with the length of its label. -/
theorem head?_of_derive {label : String} {ikm info : List Bytes} {okm : Bytes} {b : UInt8}
    {label' : Bytes} (hlabel : frame (encodeText label) plainSealCrypto.kdf = .ok (0 :: b :: label'))
    (h : KdfInput.derive plainSealCrypto.kdf
      { label := label, ikm := ikm, info := info, length := 32 } = .ok okm) :
    okm.head? = some b := by
  obtain ⟨input, -, h⟩ := bind_eq_ok.mp h
  obtain ⟨salt, -, h⟩ := bind_eq_ok.mp h
  obtain ⟨prk, -, h⟩ := bind_eq_ok.mp h
  obtain ⟨expandInfo, hinfo, h⟩ := bind_eq_ok.mp h
  obtain ⟨framed, hframed, hinfo⟩ := bind_eq_ok.mp hinfo
  rw [List.mapM_cons] at hframed
  obtain ⟨first, hfirst, hframed⟩ := bind_eq_ok.mp hframed
  obtain ⟨later, hlater, hframed⟩ := bind_eq_ok.mp hframed
  rw [List.mapM_cons, hlabel, ok_bind] at hlater
  obtain ⟨rest, -, hlater⟩ := bind_eq_ok.mp hlater
  obtain rfl := Except.ok.inj hlater
  obtain rfl := Except.ok.inj hframed
  obtain rfl := Except.ok.inj hinfo
  obtain rfl := Except.ok.inj h
  have hlen : first.length = 12 := by
    have hok : frame (encodeText PROTOCOL_RO) plainSealCrypto.kdf =
        .ok ([0, 10] ++ encodeText PROTOCOL_RO) := by decide +kernel
    obtain rfl := Except.ok.inj (hok.symm.trans hfirst)
    decide +kernel
  have hdrop : (concatAll (first :: (0 :: b :: label') :: rest)).drop 13 =
      b :: (label' ++ rest.flatten) := by
    unfold concatAll
    rw [List.flatten_cons, List.drop_append, List.drop_eq_nil_of_le (by omega), hlen]
    rfl
  rw [hdrop]
  rfl

theorem plain_layout {ref : ObjectRef} (href : ref.plaintextLength = 1) :
    layout (layoutParams ref.plaintextLength plainSealCrypto) = .ok {
      nSeg := 1
      nEp := 1
      headerSize := 176
      firstBlockOffset := 65536
      totalSize := 65537
      saltOffset := 0
      commitmentOffset := 32
      snapshotOffset := 64
      epochHeadsOffset := 96
      metaOffset := 128
      metaLen := 48 } := by
  rw [href]
  decide +kernel

theorem plain_lhInputs {ref : ObjectRef} (href : ref.plaintextLength = 1)
    (h : openObject cek objectId bytes ref plainSealCrypto = .ok plaintext) :
    CollisionFree (lh · plainSealCrypto.kdf)
      (lhInputs ref plainSealCrypto bytes ∪ lhInputs ref plainSealCrypto bytes) := by
  obtain ⟨-, -, -, l, state, -, hl, -, hv, -, -⟩ := openObject_eq_ok.mp h
  have hlayout := Except.ok.inj ((plain_layout href).symm.trans hl)
  have hlen : bytes.length = 65537 := by
    rw [hv.length, ← hlayout]
  have hblock : (blockOf l bytes 0).length = 1 := by
    unfold blockOf
    rw [← slice_min_length, length_slice (min_le_right ..), hlen, ← hlayout]
    rfl
  have hrun : (runOf l bytes 0).length = 48 := by
    unfold runOf
    rw [length_slice (by rw [hlen, ← hlayout]; decide), ← hlayout]
    rfl
  have hheads : (headsOf l bytes).length = 32 := by
    unfold headsOf
    rw [length_slice (by rw [hlen, ← hlayout]; decide), ← hlayout]
    rfl
  -- A block, a run or the heads, told apart by their lengths.
  have hmem : ∀ x ∈ lhInputs ref plainSealCrypto bytes ∪ lhInputs ref plainSealCrypto bytes,
      x = blockOf l bytes 0 ∨ x = runOf l bytes 0 ∨ x = headsOf l bytes := by
    rw [Set.union_self]
    rintro x ⟨l', hl', hx⟩
    obtain rfl := Except.ok.inj (hl.symm.trans hl')
    have hone : l.nSeg = 1 ∧ l.nEp = 1 := by
      rw [← hlayout]
      exact ⟨rfl, rfl⟩
    rcases hx with ⟨i, hi, rfl⟩ | ⟨e, he, rfl⟩ | rfl
    · obtain rfl : i = 0 := by omega
      exact .inl rfl
    · obtain rfl : e = 0 := by omega
      exact .inr (.inl rfl)
    · exact .inr (.inr rfl)
  intro x hx y hy digest hxd hyd
  have hhead := (head?_of_lh hxd).symm.trans (head?_of_lh hyd)
  rcases hmem x hx with rfl | rfl | rfl <;> rcases hmem y hy with rfl | rfl | rfl <;>
    first
      | rfl
      | simp only [hblock, hrun, hheads] at hhead
        exact absurd hhead (by decide)

theorem plain_kdfInputs {ref : ObjectRef} (href : ref.plaintextLength = 1) :
    CollisionFree (KdfInput.derive plainSealCrypto.kdf)
      ({input | KdfInputs cek objectId ref plainSealCrypto bytes input} ∪
        {input | KdfInputs cek objectId ref plainSealCrypto bytes input}) := by
  have hcommit : frame (encodeText "commit") plainSealCrypto.kdf =
      .ok (0 :: 6 :: encodeText "commit") := by decide +kernel
  have hhead : frame (encodeText "snap_epoch") plainSealCrypto.kdf =
      .ok (0 :: 10 :: encodeText "snap_epoch") := by decide +kernel
  have hroot : frame (encodeText "snap_epoch_root") plainSealCrypto.kdf =
      .ok (0 :: 15 :: encodeText "snap_epoch_root") := by decide +kernel
  rw [Set.union_self]
  intro x hx y hy okm hxo hyo
  have hne : ∀ {a b : UInt8}, okm.head? = some a → okm.head? = some b → a ≠ b → x = y :=
    fun ha hb hab => absurd (Option.some.inj (ha.symm.trans hb)) hab
  cases hx with
  | commit =>
    cases hy with
    | commit => rfl
    | head => exact hne (head?_of_derive hcommit hxo) (head?_of_derive hhead hyo) (by decide)
    | root => exact hne (head?_of_derive hcommit hxo) (head?_of_derive hroot hyo) (by decide)
  | head hl hstate he hdigest =>
    cases hy with
    | commit => exact hne (head?_of_derive hhead hxo) (head?_of_derive hcommit hyo) (by decide)
    | head hl' hstate' he' hdigest' =>
      obtain rfl := Except.ok.inj (hl.symm.trans hl')
      obtain rfl := Except.ok.inj (hstate.symm.trans hstate')
      have hone := congrArg Layout.nEp (Except.ok.inj ((plain_layout href).symm.trans hl))
      rw [← hone] at he he'
      obtain rfl := Nat.lt_one_iff.mp he
      obtain rfl := Nat.lt_one_iff.mp he'
      obtain rfl := Except.ok.inj (hdigest.symm.trans hdigest')
      rfl
    | root => exact hne (head?_of_derive hhead hxo) (head?_of_derive hroot hyo) (by decide)
  | root hl hstate hcount hdigest =>
    cases hy with
    | commit => exact hne (head?_of_derive hroot hxo) (head?_of_derive hcommit hyo) (by decide)
    | head => exact hne (head?_of_derive hroot hxo) (head?_of_derive hhead hyo) (by decide)
    | root hl' hstate' hcount' hdigest' =>
      obtain rfl := Except.ok.inj (hl.symm.trans hl')
      obtain rfl := Except.ok.inj (hstate.symm.trans hstate')
      obtain rfl := Except.ok.inj (hcount.symm.trans hcount')
      obtain rfl := Except.ok.inj (hdigest.symm.trans hdigest')
      rfl

/-- One byte is sealed, and its object is what opens to it. -/
theorem sealed_object_opens_alone_one_byte :
    ∃ sealed bytes', sealObject (List.replicate 32 1) [1] [7] (List.replicate 32 2)
        plainSealCrypto = .ok sealed ∧
      openObject (List.replicate 32 1) [1] sealed.bytes
        { snapshot := sealed.snapshot, plaintextLength := 1 } plainSealCrypto = .ok [7] ∧
      openObject (List.replicate 32 1) [1] bytes'
        { snapshot := sealed.snapshot, plaintextLength := 1 } plainSealCrypto = .ok [7] ∧
      sealed.bytes = bytes' := by
  obtain ⟨sealed, hsealed, hopen⟩ := (sealed_object_opens_alone plainSealCrypto).1
    plainSealCrypto_lawful (List.replicate 32 1) [1] [7] (List.replicate 32 2) rfl (by decide)
    (by decide) (by decide) rfl
  exact ⟨sealed, sealed.bytes, hsealed, hopen, hopen,
    (sealed_object_opens_alone plainSealCrypto).2 _ _ _ _ _ _ _ (plain_lhInputs rfl hopen)
      (plain_kdfInputs rfl) hopen hopen⟩

end WebcryptoMls
