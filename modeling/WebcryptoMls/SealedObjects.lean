import WebcryptoMls.SealSchedule

/-!
# Sealed objects

Sealing a plaintext whole and opening the object whole. What opening accepts is
stated once, as a description of the bytes: every leaf, every head and the root are
what the bytes beside them give, and the gap is zero.
-/
namespace WebcryptoMls
open Slices

structure SealedObject where
  bytes : Bytes
  snapshot : Bytes
  salt : Bytes

/-- The parts of a reference an object is opened against. -/
structure ObjectRef where
  snapshot : Bytes
  plaintextLength : ℤ

def sealParams (crypto : SealCrypto) (salt : Bytes) : SealParams where
  protocolId := PROTOCOL_RO
  aeadId := crypto.aeadId
  kdfId := crypto.kdfId
  segmentMax := SEGMENT_MAX
  snapId := SNAP_EPOCH_TREE
  nonceMode := NONCE_DERIVED
  epochLength := ATTACHMENT_EPOCH_LENGTH
  salt := salt

def layoutParams (plaintextLength : ℤ) (crypto : SealCrypto) : LayoutParams where
  plaintextLength := plaintextLength
  segmentMax := SEGMENT_MAX
  epochLength := ATTACHMENT_EPOCH_LENGTH
  nh := crypto.kdf.size

def perEpoch : ℕ := 2 ^ ATTACHMENT_EPOCH_LENGTH

theorem SEGMENT_MAX_pos : 0 < SEGMENT_MAX := by decide

/-- `bytes.set(x, offset)` -/
def setBytes (bytes x : Bytes) (offset : ℕ) : Except MlsError Bytes :=
  if offset + x.length > bytes.length then throw (rangeError "offset is out of bounds")
  else pure (overwrite bytes x offset)

theorem setBytes_ok {bytes x : Bytes} {offset : ℕ} (h : offset + x.length ≤ bytes.length) :
    setBytes bytes x offset = .ok (overwrite bytes x offset) := by
  unfold setBytes
  rw [if_neg (not_lt.mpr h)]
  rfl

/-- The stored leaf of a segment. -/
def leafBytes (l : Layout) (bytes : Bytes) (i : ℕ) : Bytes :=
  let mr := metaRange l i
  slice bytes mr.offset (mr.offset + mr.length)

/-- The round of `sealObject` for one segment. -/
def sealRound (state : SealState) (l : Layout) (p : LayoutParams) (plaintext bytes : Bytes) (i : ℕ) :
    Except MlsError Bytes := do
  let isFinal := i == l.nSeg - 1
  let segStart := i * SEGMENT_MAX
  let segEnd := min (segStart + SEGMENT_MAX) plaintext.length
  let sealed ← sealSegment state i isFinal (slice plaintext segStart segEnd) none []
  let br ← blockRange l p i
  let bytes ← setBytes bytes sealed.ciphertext br.offset
  let leaf ← segmentLeaf state sealed.ciphertext sealed.tag
  setBytes bytes leaf (metaRange l i).offset

/-- The segments of one epoch. -/
def epochSegments (l : Layout) (e : ℕ) : List ℕ :=
  let first := e * perEpoch
  let count := min perEpoch (l.nSeg - first)
  List.range' first count

def sealObject (cek objectId plaintext salt : Bytes) (crypto : SealCrypto) :
    Except MlsError SealedObject := do
  assertCekLength cek
  if plaintext.length = 0 then throw attachmentError
  else if objectId.length = 0 ∨ objectId.length > 255 then throw attachmentError
  else do
    let state ← startSeal cek (sealParams crypto salt) objectId crypto
    let p := layoutParams plaintext.length crypto
    let l ← layout p
    let bytes ← (List.range l.nSeg).foldlM (sealRound state l p plaintext)
      (List.replicate l.totalSize 0)
    let heads ← (List.range l.nEp).mapM fun e =>
      epochHead state (concatAll ((epochSegments l e).map (leafBytes l bytes)))
    let allHeads := concatAll heads
    let root ← epochTreeRoot state l.nSeg allHeads
    let bytes ← setBytes bytes salt 0
    let bytes ← setBytes bytes state.commitment 32
    let bytes ← setBytes bytes root (32 + crypto.kdf.size)
    let bytes ← setBytes bytes allHeads l.epochHeadsOffset
    pure { bytes := bytes, snapshot := root, salt := salt }

/-- The stored ciphertext of a segment. -/
def blockBytes (l : Layout) (p : LayoutParams) (bytes : Bytes) (i : ℕ) : Except MlsError Bytes := do
  let br ← blockRange l p i
  pure (slice bytes br.offset (br.offset + br.length))

/-- The stored tag of a segment. -/
def tagBytes (l : Layout) (nh : ℕ) (bytes : Bytes) (i : ℕ) : Bytes :=
  let mr := metaRange l i
  slice bytes (mr.offset + nh) (mr.offset + mr.length)

/-- The stored head of an epoch. -/
def headBytes (l : Layout) (nh : ℕ) (bytes : Bytes) (e : ℕ) : Bytes :=
  slice bytes (l.epochHeadsOffset + e * nh) (l.epochHeadsOffset + (e + 1) * nh)

/-- Recomputes a leaf and compares it with the stored one. -/
def checkLeaf (state : SealState) (l : Layout) (p : LayoutParams) (bytes : Bytes) (i : ℕ) :
    Except MlsError Bytes := do
  let ciphertext ← blockBytes l p bytes i
  let leaf ← segmentLeaf state ciphertext (tagBytes l p.nh bytes i)
  if !constantTimeEqual leaf (leafBytes l bytes i) then throw attachmentError else pure leaf

/-- Recomputes the leaves and the head of an epoch. -/
def checkEpoch (state : SealState) (l : Layout) (p : LayoutParams) (bytes : Bytes) (e : ℕ) :
    Except MlsError Bytes := do
  let leaves ← (epochSegments l e).mapM (checkLeaf state l p bytes)
  let head ← epochHead state (concatAll leaves)
  if !constantTimeEqual head (headBytes l p.nh bytes e) then throw attachmentError else pure head

/-- Opens one stored segment. -/
def openStored (state : SealState) (l : Layout) (p : LayoutParams) (bytes : Bytes) (i : ℕ) :
    Except MlsError Bytes := do
  let ciphertext ← blockBytes l p bytes i
  openSegment state i (i == l.nSeg - 1) ciphertext (tagBytes l p.nh bytes i) none []

def openObject (cek objectId bytes : Bytes) (ref : ObjectRef) (crypto : SealCrypto) :
    Except MlsError Bytes := do
  assertCekLength cek
  if objectId.length < 1 ∨ objectId.length > 255 then throw attachmentError
  else do
    let p := layoutParams ref.plaintextLength crypto
    let l ← layout p
    if bytes.length ≠ l.totalSize then throw attachmentError
    else if !isZeroRegion bytes l.headerSize l.firstBlockOffset then throw attachmentError
    else do
      let salt := slice bytes 0 32
      let storedCommitment := slice bytes 32 (32 + crypto.kdf.size)
      let state ← startOpen cek (sealParams crypto salt) objectId storedCommitment crypto
      let heads ← (List.range l.nEp).mapM (checkEpoch state l p bytes)
      let root ← epochTreeRoot state l.nSeg (concatAll heads)
      if !constantTimeEqual root ref.snapshot then throw attachmentError
      else
        let storedSnapshot := slice bytes (32 + crypto.kdf.size) (32 + 2 * crypto.kdf.size)
        if !constantTimeEqual root storedSnapshot then throw attachmentError
        else do
          let plaintextParts ← (List.range l.nSeg).mapM (openStored state l p bytes)
          pure (concatAll plaintextParts)

/-! ## What opening accepts -/

/-- The ciphertext of a segment, as a slice; the last one ends with the bytes. -/
def blockOf (l : Layout) (bytes : Bytes) (i : ℕ) : Bytes :=
  slice bytes (l.firstBlockOffset + i * SEGMENT_MAX) (l.firstBlockOffset + (i + 1) * SEGMENT_MAX)

/-- The number of segments before an epoch's end. -/
def epochEnd (l : Layout) (e : ℕ) : ℕ := min ((e + 1) * perEpoch) l.nSeg

/-- The leaves of an epoch, as one slice. -/
def runOf (l : Layout) (bytes : Bytes) (e : ℕ) : Bytes :=
  slice bytes (l.metaOffset + e * perEpoch * l.metaLen) (l.metaOffset + epochEnd l e * l.metaLen)

/-- All heads, as one slice. -/
def headsOf (l : Layout) (bytes : Bytes) : Bytes :=
  slice bytes l.epochHeadsOffset l.metaOffset

/-- The bytes are an object with this snapshot: each digest in them is of the
bytes it stands for. -/
structure Verified (state : SealState) (l : Layout) (nh : ℕ) (snapshot bytes : Bytes) : Prop where
  length : bytes.length = l.totalSize
  gap : isZeroRegion bytes l.headerSize l.firstBlockOffset = true
  leaves : ∀ i < l.nSeg,
    segmentLeaf state (blockOf l bytes i) (tagBytes l nh bytes i) = .ok (leafBytes l bytes i)
  heads : ∀ e < l.nEp, epochHead state (runOf l bytes e) = .ok (headBytes l nh bytes e)
  root : epochTreeRoot state l.nSeg (headsOf l bytes) = .ok snapshot
  stored : slice bytes (32 + nh) (32 + 2 * nh) = snapshot

variable {p : LayoutParams} {l : Layout} {state : SealState} {bytes : Bytes}

theorem blockBytes_eq_ok (h : LayoutFacts p l) (hp : p.segmentMax = SEGMENT_MAX)
    (hlen : bytes.length = l.totalSize) {i : ℕ} (hi : i < l.nSeg) :
    blockBytes l p bytes i = .ok (blockOf l bytes i) := by
  have hstop : l.firstBlockOffset + i * p.segmentMax +
      min p.segmentMax (p.plaintextLength.toNat - i * p.segmentMax) =
        min (l.firstBlockOffset + (i + 1) * p.segmentMax) bytes.length := by
    have hstart := (h.seg i).mp hi
    have htotal := h.total
    rw [Nat.succ_mul]
    omega
  have hblock : slice bytes (l.firstBlockOffset + i * p.segmentMax)
      (l.firstBlockOffset + i * p.segmentMax +
        min p.segmentMax (p.plaintextLength.toNat - i * p.segmentMax)) = blockOf l bytes i := by
    rw [hstop, slice_min_length, hp]
    rfl
  unfold blockBytes
  rw [blockRange_eq_ok h hi, ← hblock]
  rfl

theorem checkLeaf_eq_ok (h : LayoutFacts p l) (hp : p.segmentMax = SEGMENT_MAX)
    (hlen : bytes.length = l.totalSize) {i : ℕ} (hi : i < l.nSeg) (leaf : Bytes) :
    checkLeaf state l p bytes i = .ok leaf ↔
      segmentLeaf state (blockOf l bytes i) (tagBytes l p.nh bytes i) =
        .ok (leafBytes l bytes i) ∧ leaf = leafBytes l bytes i := by
  unfold checkLeaf
  rw [blockBytes_eq_ok h hp hlen hi, ok_bind, bind_eq_ok]
  constructor
  · rintro ⟨computed, hcomputed, hcheck⟩
    split_ifs at hcheck with heq
    obtain rfl := Except.ok.inj hcheck
    simp only [Bool.not_eq_true', Bool.not_eq_false, constantTimeEqual_iff] at heq
    exact ⟨heq ▸ hcomputed, heq⟩
  · rintro ⟨hleaf, rfl⟩
    refine ⟨_, hleaf, ?_⟩
    rw [if_neg (by simp)]
    rfl

/-- The leaves of an epoch one by one are its run. -/
theorem concatAll_epochSegments (hfacts : LayoutFacts p l) (hp : p.epochLength = ATTACHMENT_EPOCH_LENGTH)
    {e : ℕ} (he : e < l.nEp) :
    concatAll ((epochSegments l e).map (leafBytes l bytes)) = runOf l bytes e := by
  have hstart : e * perEpoch < l.nSeg := by
    have := (hfacts.ep e).mp he
    rwa [hp] at this
  generalize hcount : min perEpoch (l.nSeg - e * perEpoch) = count
  have hleaves : (epochSegments l e).map (leafBytes l bytes) = (List.range count).map fun i =>
      slice bytes (l.metaOffset + e * perEpoch * l.metaLen + i * l.metaLen)
        (l.metaOffset + e * perEpoch * l.metaLen + (i + 1) * l.metaLen) := by
    simp only [epochSegments]
    rw [hcount, List.range'_eq_map_range, List.map_map]
    apply List.map_congr_left
    intro j _
    simp only [Function.comp_apply, leafBytes, metaRange]
    rw [show l.metaOffset + (e * perEpoch + j) * l.metaLen =
        l.metaOffset + e * perEpoch * l.metaLen + j * l.metaLen by ring,
      show l.metaOffset + e * perEpoch * l.metaLen + j * l.metaLen + l.metaLen =
        l.metaOffset + e * perEpoch * l.metaLen + (j + 1) * l.metaLen by ring]
  have hend : e * perEpoch + count = epochEnd l e := by
    unfold epochEnd
    rw [Nat.succ_mul]
    omega
  unfold concatAll runOf
  rw [hleaves, flatten_slices, ← hend, Nat.add_mul, Nat.add_assoc]

theorem checkEpoch_eq_ok (h : LayoutFacts p l) (hp : p.segmentMax = SEGMENT_MAX)
    (hep : p.epochLength = ATTACHMENT_EPOCH_LENGTH) (hlen : bytes.length = l.totalSize) {e : ℕ}
    (he : e < l.nEp) (head : Bytes) :
    checkEpoch state l p bytes e = .ok head ↔
      ((∀ i ∈ epochSegments l e,
        segmentLeaf state (blockOf l bytes i) (tagBytes l p.nh bytes i) = .ok (leafBytes l bytes i)) ∧
        epochHead state (runOf l bytes e) = .ok (headBytes l p.nh bytes e)) ∧
      head = headBytes l p.nh bytes e := by
  have hmem : ∀ i ∈ epochSegments l e, i < l.nSeg := by
    intro i hi
    unfold epochSegments at hi
    rw [List.mem_range'_1] at hi
    omega
  have hleaves : ∀ leaves, (epochSegments l e).mapM (checkLeaf state l p bytes) = .ok leaves ↔ _ :=
    fun leaves => mapM_eq_ok_iff fun i hi leaf => checkLeaf_eq_ok h hp hlen (hmem i hi) leaf
  unfold checkEpoch
  rw [bind_eq_ok]
  constructor
  · rintro ⟨leaves, hmap, hcheck⟩
    obtain ⟨hall, rfl⟩ := (hleaves leaves).mp hmap
    obtain ⟨computed, hcomputed, hcheck⟩ := bind_eq_ok.mp hcheck
    rw [concatAll_epochSegments h hep he] at hcomputed
    split_ifs at hcheck with heq
    obtain rfl := Except.ok.inj hcheck
    simp only [Bool.not_eq_true', Bool.not_eq_false, constantTimeEqual_iff] at heq
    exact ⟨⟨hall, heq ▸ hcomputed⟩, heq⟩
  · rintro ⟨⟨hall, hhead⟩, rfl⟩
    refine ⟨_, (hleaves _).mpr ⟨hall, rfl⟩, ?_⟩
    rw [concatAll_epochSegments h hep he, hhead, ok_bind, if_neg (by simp)]
    rfl

/-- Every segment is one of an epoch. -/
theorem forall_epochSegments (hfacts : LayoutFacts p l) (hp : p.epochLength = ATTACHMENT_EPOCH_LENGTH)
    {P : ℕ → Prop} : (∀ e < l.nEp, ∀ i ∈ epochSegments l e, P i) ↔ ∀ i < l.nSeg, P i := by
  constructor
  · intro h i hi
    have hdiv := Nat.div_add_mod i perEpoch
    have hmod := Nat.mod_lt i (show 0 < perEpoch by decide)
    rw [Nat.mul_comm] at hdiv
    refine h (i / perEpoch) ((hfacts.ep _).mpr ?_) i ?_
    · rw [hp]
      change i / perEpoch * perEpoch < l.nSeg
      omega
    · unfold epochSegments
      rw [List.mem_range'_1]
      omega
  · intro h e _ i hi
    unfold epochSegments at hi
    rw [List.mem_range'_1] at hi
    exact h i (by omega)

theorem flatten_headBytes (h : LayoutFacts p l) :
    concatAll ((List.range l.nEp).map (headBytes l p.nh bytes)) = headsOf l bytes := by
  unfold headsOf concatAll
  rw [h.metaOffset, ← flatten_slices]
  rfl

/-- All epochs pass when every leaf and every head is what the bytes give. -/
theorem checkEpochs_eq_ok (h : LayoutFacts p l) (hp : p.segmentMax = SEGMENT_MAX)
    (hep : p.epochLength = ATTACHMENT_EPOCH_LENGTH) (hlen : bytes.length = l.totalSize)
    {heads : List Bytes} :
    (List.range l.nEp).mapM (checkEpoch state l p bytes) = .ok heads ↔
      ((∀ i < l.nSeg, segmentLeaf state (blockOf l bytes i) (tagBytes l p.nh bytes i) =
        .ok (leafBytes l bytes i)) ∧
      ∀ e < l.nEp, epochHead state (runOf l bytes e) = .ok (headBytes l p.nh bytes e)) ∧
      heads = (List.range l.nEp).map (headBytes l p.nh bytes) := by
  rw [mapM_eq_ok_iff fun e he head =>
    checkEpoch_eq_ok h hp hep hlen (List.mem_range.mp he) head, ← forall_epochSegments h hep]
  simp only [List.mem_range]
  constructor
  · rintro ⟨hall, rfl⟩
    exact ⟨⟨fun e he => (hall e he).1, fun e he => (hall e he).2⟩, rfl⟩
  · rintro ⟨⟨hleaves, hheads⟩, rfl⟩
    exact ⟨fun e he => ⟨hleaves e he, hheads e he⟩, rfl⟩

/-- What opening accepts, and what it returns. -/
theorem openObject_eq_ok {cek objectId : Bytes} {ref : ObjectRef} {crypto : SealCrypto}
    {plaintext : Bytes} :
    openObject cek objectId bytes ref crypto = .ok plaintext ↔
      cek.length = CEK_LENGTH ∧ 1 ≤ objectId.length ∧ objectId.length ≤ 255 ∧
      ∃ l state parts, layout (layoutParams ref.plaintextLength crypto) = .ok l ∧
        startOpen cek (sealParams crypto (slice bytes 0 32)) objectId
          (slice bytes 32 (32 + crypto.kdf.size)) crypto = .ok state ∧
        Verified state l crypto.kdf.size ref.snapshot bytes ∧
        (List.range l.nSeg).mapM
          (openStored state l (layoutParams ref.plaintextLength crypto) bytes) = .ok parts ∧
        plaintext = concatAll parts := by
  unfold openObject assertCekLength
  by_cases hcek : cek.length ≠ CEK_LENGTH
  · rw [if_pos hcek]
    constructor
    · intro h
      cases h
    · intro h
      exact absurd h.1 hcek
  by_cases hid : objectId.length < 1 ∨ objectId.length > 255
  · rw [if_neg hcek, if_pos hid]
    constructor
    · intro h
      cases h
    · intro h
      omega
  rw [if_neg hcek, if_neg hid]
  simp only [pure, Except.pure, ok_bind]
  constructor
  · intro h
    refine ⟨not_not.mp hcek, by omega, by omega, ?_⟩
    obtain ⟨l, hl, h⟩ := bind_eq_ok.mp h
    have hfacts := layout_eq_ok SEGMENT_MAX_pos hl
    by_cases hlen : bytes.length ≠ l.totalSize
    · rw [if_pos hlen] at h
      cases h
    rw [if_neg hlen] at h
    cases hgap : isZeroRegion bytes l.headerSize l.firstBlockOffset with
    | false =>
      rw [hgap] at h
      cases h
    | true =>
      rw [hgap] at h
      obtain ⟨state, hstate, h⟩ := bind_eq_ok.mp h
      obtain ⟨heads, hheads, h⟩ := bind_eq_ok.mp h
      obtain ⟨root, hroot, h⟩ := bind_eq_ok.mp h
      obtain ⟨hcheck, hmap⟩ := (checkEpochs_eq_ok hfacts rfl rfl (not_not.mp hlen)).mp hheads
      rw [hmap, flatten_headBytes hfacts] at hroot
      split_ifs at h with href hstored
      obtain ⟨parts, hparts, h⟩ := bind_eq_ok.mp h
      simp only [Bool.not_eq_true', Bool.not_eq_false, constantTimeEqual_iff] at href hstored
      subst href
      exact ⟨l, state, parts, hl, hstate, ⟨not_not.mp hlen, hgap, hcheck.1, hcheck.2, hroot,
        hstored.symm⟩, hparts, (Except.ok.inj h).symm⟩
  · rintro ⟨-, -, -, l, state, parts, hl, hstate, hv, hparts, rfl⟩
    have hfacts := layout_eq_ok SEGMENT_MAX_pos hl
    have hheads := (checkEpochs_eq_ok hfacts rfl rfl hv.length).mpr ⟨⟨hv.leaves, hv.heads⟩, rfl⟩
    have hroot := hv.root
    rw [← flatten_headBytes hfacts] at hroot
    rw [hl, ok_bind, if_neg (not_not.mpr hv.length), hv.gap, if_neg (by decide), hstate, ok_bind,
      hheads, ok_bind, hroot, ok_bind, if_neg (by simp), hv.stored, if_neg (by simp), hparts]
    rfl

end WebcryptoMls
