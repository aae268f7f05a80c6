import WebcryptoMls.SealedObjects

/-!
# What an object is bound to

Two objects that open under one key, one identifier and one reference are the same
bytes. The snapshot pins the heads and the commitment, the commitment pins the
salt, each head pins the leaves of its epoch and each leaf a block and its tag;
the rest is the snapshot itself and zeros.
-/
namespace WebcryptoMls
open Slices

/-- An input of the key derivation under the attachment protocol. -/
structure KdfInput where
  label : String
  ikm : List Bytes
  info : List Bytes
  length : ℕ

def KdfInput.derive (kdf : Kdf) (input : KdfInput) : Except MlsError Bytes :=
  sealKdf kdf PROTOCOL_RO input.label input.ikm input.info input.length

variable {crypto : SealCrypto} {cek objectId bytes bytes' : Bytes} {ref : ObjectRef} {length : ℤ}
  {l : Layout} {state state' : SealState} {snapshot : Bytes}

/-- What the large-field hash is computed of when an object is opened. -/
def lhInputs (ref : ObjectRef) (crypto : SealCrypto) (bytes : Bytes) : Set Bytes :=
  {x | ∃ l, layout (layoutParams ref.plaintextLength crypto) = .ok l ∧
    ((∃ i < l.nSeg, x = blockOf l bytes i) ∨ (∃ e < l.nEp, x = runOf l bytes e) ∨
      x = headsOf l bytes)}

def commitInput (objectId : Bytes) (crypto : SealCrypto) (cek bytes : Bytes) : KdfInput where
  label := "commit"
  ikm := [cek]
  info := rawFields (sealParams crypto (slice bytes 0 32)) ++ [objectId]
  length := crypto.kdf.size

def headInput (crypto : SealCrypto) (state : SealState) (digest : Bytes) : KdfInput where
  label := "snap_epoch"
  ikm := [state.snapKey]
  info := [digest]
  length := crypto.kdf.size

def rootInput (crypto : SealCrypto) (state : SealState) (count digest : Bytes) : KdfInput where
  label := "snap_epoch_root"
  ikm := [state.snapKey]
  info := [state.commitment, count, digest]
  length := crypto.kdf.size

/-- What the commitment, the heads and the root are derived from when an object is
opened. -/
inductive KdfInputs (cek objectId : Bytes) (ref : ObjectRef) (crypto : SealCrypto)
    (bytes : Bytes) : KdfInput → Prop
  | commit : KdfInputs cek objectId ref crypto bytes (commitInput objectId crypto cek bytes)
  | head {l : Layout} {state : SealState} {e : ℕ} {digest : Bytes}
      (hl : layout (layoutParams ref.plaintextLength crypto) = .ok l)
      (hstate : startOpen cek (sealParams crypto (slice bytes 0 32)) objectId
        (slice bytes 32 (32 + crypto.kdf.size)) crypto = .ok state)
      (he : e < l.nEp) (hdigest : lh (runOf l bytes e) crypto.kdf = .ok digest) :
      KdfInputs cek objectId ref crypto bytes (headInput crypto state digest)
  | root {l : Layout} {state : SealState} {count digest : Bytes}
      (hl : layout (layoutParams ref.plaintextLength crypto) = .ok l)
      (hstate : startOpen cek (sealParams crypto (slice bytes 0 32)) objectId
        (slice bytes 32 (32 + crypto.kdf.size)) crypto = .ok state)
      (hcount : uint64be l.nSeg = .ok count)
      (hdigest : lh (headsOf l bytes) crypto.kdf = .ok digest) :
      KdfInputs cek objectId ref crypto bytes (rootInput crypto state count digest)

/-! ## The schedule -/

/-- A schedule is of the suite and parameters it is derived from, and its
commitment is the stored one. -/
theorem startOpen_eq_ok {params : SealParams} {g stored : Bytes}
    (h : startOpen cek params g stored crypto = .ok state) :
    state.crypto = crypto ∧ state.params = params ∧ state.commitment = stored ∧
      sealKdf crypto.kdf params.protocolId "commit" [cek] (rawFields params ++ [g])
        crypto.kdf.size = .ok stored := by
  obtain ⟨derived, hderived, h⟩ := bind_eq_ok.mp h
  split_ifs at h with hcommit
  obtain rfl := Except.ok.inj h
  simp only [Bool.not_eq_true', Bool.not_eq_false, constantTimeEqual_iff] at hcommit
  obtain ⟨-, -, h⟩ := bind_eq_ok.mp hderived
  obtain ⟨commitment, hcommitment, h⟩ := bind_eq_ok.mp h
  obtain ⟨payloadKey, -, h⟩ := bind_eq_ok.mp h
  obtain ⟨snapKey, -, h⟩ := bind_eq_ok.mp h
  have hstate : ∃ nonceBase,
      derived = SealState.mk params commitment payloadKey snapKey nonceBase crypto := by
    dsimp only at h
    split_ifs at h
    · obtain ⟨nonceBase, -, h⟩ := bind_eq_ok.mp h
      exact ⟨nonceBase, (Except.ok.inj h).symm⟩
    · exact ⟨none, (Except.ok.inj h).symm⟩
  obtain ⟨nonceBase, rfl⟩ := hstate
  exact ⟨rfl, rfl, hcommit, hcommit ▸ hcommitment⟩

theorem epochTreeRoot_eq_ok {heads : Bytes} {nSeg : ℕ} (hcrypto : state.crypto = crypto)
    (hparams : state.params.protocolId = PROTOCOL_RO)
    (h : epochTreeRoot state nSeg heads = .ok snapshot) :
    ∃ digest count, lh heads crypto.kdf = .ok digest ∧ uint64be nSeg = .ok count ∧
      (rootInput crypto state count digest).derive crypto.kdf = .ok snapshot := by
  subst hcrypto
  obtain ⟨digest, hdigest, h⟩ := bind_eq_ok.mp h
  obtain ⟨count, hcount, h⟩ := bind_eq_ok.mp h
  rw [hparams] at h
  exact ⟨digest, count, hdigest, hcount, h⟩

theorem epochHead_eq_ok {run head : Bytes} (hcrypto : state.crypto = crypto)
    (hparams : state.params.protocolId = PROTOCOL_RO) (h : epochHead state run = .ok head) :
    ∃ digest, lh run crypto.kdf = .ok digest ∧
      (headInput crypto state digest).derive crypto.kdf = .ok head := by
  subst hcrypto
  obtain ⟨digest, hdigest, h⟩ := bind_eq_ok.mp h
  rw [hparams] at h
  exact ⟨digest, hdigest, h⟩

theorem salt_of_rawFields {salt salt' : Bytes}
    (h : rawFields (sealParams crypto salt) ++ [objectId] =
      rawFields (sealParams crypto salt') ++ [objectId]) : salt = salt' := by
  simpa [rawFields, sealParams] using h

/-! ## Slices of the header -/

theorem headBytes_of_headsOf (h : LayoutFacts (layoutParams length crypto) l)
    (heads : headsOf l bytes = headsOf l bytes') {e : ℕ} (he : e < l.nEp) :
    headBytes l crypto.kdf.size bytes e = headBytes l crypto.kdf.size bytes' e := by
  have hle : (e + 1) * crypto.kdf.size ≤ l.nEp * crypto.kdf.size := Nat.mul_le_mul_right _ he
  have hmeta : l.epochHeadsOffset + (e + 1) * crypto.kdf.size ≤ l.metaOffset := by
    rw [h.metaOffset]
    exact Nat.add_le_add_left hle _
  unfold headBytes
  rw [← slice_slice bytes hmeta, ← slice_slice bytes' hmeta]
  unfold headsOf at heads
  rw [heads]

/-- Where a leaf is in the run of its epoch. -/
theorem leaf_in_run (l : Layout) {i : ℕ} (hi : i < l.nSeg) :
    i / perEpoch * perEpoch * l.metaLen + i % perEpoch * l.metaLen = i * l.metaLen ∧
      i * l.metaLen + l.metaLen ≤ epochEnd l (i / perEpoch) * l.metaLen := by
  have hdiv := Nat.div_add_mod i perEpoch
  have hmod := Nat.mod_lt i (show 0 < perEpoch by decide)
  rw [Nat.mul_comm] at hdiv
  have hend : i + 1 ≤ epochEnd l (i / perEpoch) := by
    unfold epochEnd
    rw [Nat.succ_mul]
    omega
  rw [← Nat.add_mul, hdiv, ← Nat.succ_mul]
  exact ⟨rfl, Nat.mul_le_mul_right _ hend⟩

theorem leafBytes_eq_slice (bytes : Bytes) {i : ℕ} (hi : i < l.nSeg) :
    leafBytes l bytes i = slice (runOf l bytes (i / perEpoch)) (i % perEpoch * l.metaLen)
      (i % perEpoch * l.metaLen + l.metaLen) := by
  obtain ⟨hsplit, hend⟩ := leaf_in_run l hi
  unfold runOf
  rw [slice_slice bytes (by omega)]
  simp only [leafBytes, metaRange]
  congr 1 <;> omega

theorem leafBytes_of_runOf {i : ℕ} (hi : i < l.nSeg)
    (hrun : runOf l bytes (i / perEpoch) = runOf l bytes' (i / perEpoch)) :
    leafBytes l bytes i = leafBytes l bytes' i := by
  rw [leafBytes_eq_slice bytes hi, leafBytes_eq_slice bytes' hi, hrun]

theorem tagBytes_eq (h : LayoutFacts (layoutParams length crypto) l) (i : ℕ) :
    tagBytes l crypto.kdf.size bytes i =
      slice (leafBytes l bytes i) crypto.kdf.size (crypto.kdf.size + META_TAG_LENGTH) := by
  have hlen := h.metaLen
  change l.metaLen = crypto.kdf.size + META_TAG_LENGTH at hlen
  simp only [leafBytes, tagBytes, metaRange]
  rw [slice_slice bytes (by omega), hlen]

/-- A leaf pins its block. -/
theorem blockOf_of_leafBytes (h : LayoutFacts (layoutParams ref.plaintextLength crypto) l)
    (hl : layout (layoutParams ref.plaintextLength crypto) = .ok l)
    (hlh : CollisionFree (lh · crypto.kdf) (lhInputs ref crypto bytes ∪ lhInputs ref crypto bytes'))
    (hcrypto : state.crypto = crypto) (hv : Verified state l crypto.kdf.size snapshot bytes)
    (hv' : Verified state l crypto.kdf.size snapshot bytes') {i : ℕ} (hi : i < l.nSeg)
    (hleaf : leafBytes l bytes i = leafBytes l bytes' i) :
    blockOf l bytes i = blockOf l bytes' i := by
  subst hcrypto
  obtain ⟨digest, hdigest, hd⟩ := bind_eq_ok.mp (hv.leaves i hi)
  obtain ⟨digest', hdigest', hd'⟩ := bind_eq_ok.mp (hv'.leaves i hi)
  have hcat := (Except.ok.inj hd).trans (hleaf.trans (Except.ok.inj hd').symm)
  simp only [concatAll, List.flatten_cons, List.flatten_nil, List.append_nil] at hcat
  rw [tagBytes_eq h, tagBytes_eq h, hleaf] at hcat
  obtain rfl := List.append_cancel_right hcat
  exact hlh _ (.inl ⟨l, hl, .inl ⟨i, hi, rfl⟩⟩) _ (.inr ⟨l, hl, .inl ⟨i, hi, rfl⟩⟩) _ hdigest hdigest'

/-! ## One object for one reference -/

theorem startOpen_unique {salt salt' stored stored' : Bytes}
    (h : startOpen cek (sealParams crypto salt) objectId stored crypto = .ok state)
    (h' : startOpen cek (sealParams crypto salt') objectId stored' crypto = .ok state')
    (hsalt : salt = salt') (hstored : stored = stored') : state = state' := by
  subst hsalt hstored
  exact Except.ok.inj (h.symm.trans h')

/-- The stretches of an object, up to the end of its last block. -/
theorem bytes_eq_of_slices (h : LayoutFacts (layoutParams ref.plaintextLength crypto) l)
    (hlen : bytes.length = l.totalSize) (hlen' : bytes'.length = l.totalSize)
    (hsalt : slice bytes 0 32 = slice bytes' 0 32)
    (hcommitment : slice bytes 32 (32 + crypto.kdf.size) = slice bytes' 32 (32 + crypto.kdf.size))
    (hsnapshot : slice bytes (32 + crypto.kdf.size) (32 + 2 * crypto.kdf.size) =
      slice bytes' (32 + crypto.kdf.size) (32 + 2 * crypto.kdf.size))
    (hheads : headsOf l bytes = headsOf l bytes')
    (hleaves : ∀ i < l.nSeg, leafBytes l bytes i = leafBytes l bytes' i)
    (hgap : slice bytes l.headerSize l.firstBlockOffset =
      slice bytes' l.headerSize l.firstBlockOffset)
    (hblocks : ∀ i < l.nSeg, blockOf l bytes i = blockOf l bytes' i) : bytes = bytes' := by
  have hnh : 32 + 2 * crypto.kdf.size = l.epochHeadsOffset := h.heads.symm
  have hmeta : l.epochHeadsOffset ≤ l.metaOffset := by
    rw [h.metaOffset]
    exact Nat.le_add_right ..
  have hheader : l.metaOffset ≤ l.headerSize := by
    rw [h.header]
    exact Nat.le_add_right ..
  have hfirst : l.headerSize ≤ l.firstBlockOffset := h.gap
  have htotal : l.firstBlockOffset ≤ l.totalSize := by
    rw [h.total]
    exact Nat.le_add_right ..
  have hend : bytes.length ≤ l.firstBlockOffset + l.nSeg * SEGMENT_MAX := by
    have hseg := mt (h.seg l.nSeg).mpr (lt_irrefl _)
    change ¬l.nSeg * SEGMENT_MAX < _ at hseg
    rw [hlen, h.total]
    omega
  have hmetas : slice bytes l.metaOffset l.headerSize = slice bytes' l.metaOffset l.headerSize := by
    rw [h.header]
    apply slice_eq_of_slices
    intro i hi
    have hleaf := hleaves i hi
    simp only [leafBytes, metaRange] at hleaf
    rwa [Nat.succ_mul, ← Nat.add_assoc]
  have hpayload : slice bytes l.firstBlockOffset bytes.length =
      slice bytes' l.firstBlockOffset bytes'.length := by
    have hall : slice bytes l.firstBlockOffset (l.firstBlockOffset + l.nSeg * SEGMENT_MAX) =
        slice bytes' l.firstBlockOffset (l.firstBlockOffset + l.nSeg * SEGMENT_MAX) :=
      slice_eq_of_slices hblocks
    rw [← slice_min_length, ← slice_min_length bytes'] at hall
    rwa [min_eq_right hend, min_eq_right (by omega)] at hall
  have hcut : ∀ b : Bytes, b.length = l.totalSize → b = slice b 0 32 ++
      (slice b 32 (32 + crypto.kdf.size) ++
      (slice b (32 + crypto.kdf.size) (32 + 2 * crypto.kdf.size) ++
      (headsOf l b ++ (slice b l.metaOffset l.headerSize ++
      (slice b l.headerSize l.firstBlockOffset ++ slice b l.firstBlockOffset b.length))))) := by
    intro b hb
    unfold headsOf
    rw [slice_append_slice b hfirst (by omega), slice_append_slice b hheader (by omega),
      slice_append_slice b hmeta (by omega), hnh, slice_append_slice b (by omega) (by omega),
      slice_append_slice b (by omega) (by omega), slice_append_slice b (by omega) (by omega),
      slice_all]
  rw [hcut bytes hlen, hcut bytes' hlen', hsalt, hcommitment, hsnapshot, hheads, hmetas, hgap,
    hpayload]

/-- What opens for a key, an identifier and a reference is one byte string. -/
theorem openObject_unique {plaintext plaintext' : Bytes}
    (h : openObject cek objectId bytes ref crypto = .ok plaintext)
    (h' : openObject cek objectId bytes' ref crypto = .ok plaintext')
    (hlh : CollisionFree (lh · crypto.kdf)
      (lhInputs ref crypto bytes ∪ lhInputs ref crypto bytes'))
    (hkdf : CollisionFree (KdfInput.derive crypto.kdf)
      ({input | KdfInputs cek objectId ref crypto bytes input} ∪
        {input | KdfInputs cek objectId ref crypto bytes' input})) : bytes = bytes' := by
  obtain ⟨-, -, -, l, state, -, hl, hstate, hv, -, -⟩ := openObject_eq_ok.mp h
  obtain ⟨-, -, -, l', state', -, hl', hstate', hv', -, -⟩ := openObject_eq_ok.mp h'
  obtain rfl := Except.ok.inj (hl.symm.trans hl')
  have hfacts := layout_eq_ok SEGMENT_MAX_pos hl
  obtain ⟨hcrypto, hparams, hstored, hcommit⟩ := startOpen_eq_ok hstate
  obtain ⟨hcrypto', hparams', hstored', hcommit'⟩ := startOpen_eq_ok hstate'
  have hpid : state.params.protocolId = PROTOCOL_RO := by rw [hparams]; rfl
  have hpid' : state'.params.protocolId = PROTOCOL_RO := by rw [hparams']; rfl
  -- The root pins the commitment and the heads.
  obtain ⟨digest, count, hdigest, hcount, hroot⟩ := epochTreeRoot_eq_ok hcrypto hpid hv.root
  obtain ⟨digest', count', hdigest', hcount', hroot'⟩ := epochTreeRoot_eq_ok hcrypto' hpid' hv'.root
  have hinputs := hkdf _ (.inl (.root hl hstate hcount hdigest)) _
    (.inr (.root hl hstate' hcount' hdigest')) _ hroot hroot'
  simp only [rootInput, KdfInput.mk.injEq, List.cons.injEq, and_true, true_and] at hinputs
  obtain ⟨-, hcommitment, -, hdigests⟩ := hinputs
  have hheads : headsOf l bytes = headsOf l bytes' :=
    hlh _ (.inl ⟨l, hl, .inr (.inr rfl)⟩) _ (.inr ⟨l, hl, .inr (.inr rfl)⟩) _ hdigest
      (hdigests ▸ hdigest')
  -- The commitment pins the salt, and so the whole schedule.
  rw [hstored, hstored'] at hcommitment
  have hsalt : slice bytes 0 32 = slice bytes' 0 32 := by
    have hcommits := hkdf _ (.inl .commit) _ (.inr .commit) _ hcommit (hcommitment ▸ hcommit')
    exact salt_of_rawFields (congrArg KdfInput.info hcommits)
  obtain rfl := startOpen_unique hstate hstate' hsalt hcommitment
  -- Each head pins the leaves of its epoch, and each leaf its block.
  have hruns : ∀ e < l.nEp, runOf l bytes e = runOf l bytes' e := by
    intro e he
    obtain ⟨run, hrun, hhead⟩ := epochHead_eq_ok hcrypto hpid (hv.heads e he)
    obtain ⟨run', hrun', hhead'⟩ := epochHead_eq_ok hcrypto hpid (hv'.heads e he)
    rw [← headBytes_of_headsOf hfacts hheads he] at hhead'
    have heads := hkdf _ (.inl (.head hl hstate he hrun)) _ (.inr (.head hl hstate' he hrun')) _
      hhead hhead'
    simp only [headInput, KdfInput.mk.injEq, List.cons.injEq, and_true, true_and] at heads
    exact hlh _ (.inl ⟨l, hl, .inr (.inl ⟨e, he, rfl⟩)⟩) _ (.inr ⟨l, hl, .inr (.inl ⟨e, he, rfl⟩)⟩)
      _ hrun (heads ▸ hrun')
  have hleaves : ∀ i < l.nSeg, leafBytes l bytes i = leafBytes l bytes' i := by
    intro i hi
    refine leafBytes_of_runOf hi (hruns _ ((hfacts.ep _).mpr ?_))
    exact lt_of_le_of_lt (Nat.div_mul_le_self i _) hi
  refine bytes_eq_of_slices hfacts hv.length hv'.length hsalt hcommitment
    (hv.stored.trans hv'.stored.symm) hheads hleaves ?_ ?_
  · exact (isZeroRegion_iff.mp hv.gap).trans (isZeroRegion_iff.mp hv'.gap).symm
  · intro i hi
    exact blockOf_of_leafBytes hfacts hl hlh hcrypto hv hv' hi (hleaves i hi)

end WebcryptoMls
