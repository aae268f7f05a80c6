import WebcryptoMls.ChunkQueue
import WebcryptoMls.SealBinding

/-!
# The attachment reader

Reads an object as its ciphertext arrives: the commitment is checked on the fixed
prefix, the root on the heads, each epoch on its run of leaves, and then each block
on its leaf, before anything of the block is emitted. A stream is consumed to its
end here, so nothing is cancelled, and wiping is not modelled.
-/
namespace WebcryptoMls
open Slices ChunkQueue

/-! ## References -/

structure AttachmentRef where
  version : ℤ
  objectId : Bytes
  plaintextLength : ℤ
  snapshot : Bytes
  locator : Bytes

def ATTACHMENT_REF_VERSION : ℤ := 1

def SNAPSHOT_LENGTHS : List ℕ := [32, 48, 64]

def validateAttachmentRef (r : AttachmentRef) (kdfSize : Option ℕ) : Except MlsError Unit :=
  if r.version ≠ ATTACHMENT_REF_VERSION then throw attachmentError
  else if r.objectId.length < 1 ∨ r.objectId.length > 255 then throw attachmentError
  else if r.plaintextLength ≤ 0 then throw attachmentError
  else if r.plaintextLength > 0xFFFFFFFFFFFFFFFF then throw attachmentError
  else
    match kdfSize with
    | none => if r.snapshot.length ∉ SNAPSHOT_LENGTHS then throw attachmentError else pure ()
    | some size => if r.snapshot.length ≠ size then throw attachmentError else pure ()

/-! ## The checks -/

/-- `prefix` of a header. -/
structure HeaderPrefix where
  salt : Bytes
  storedCommitment : Bytes
  storedSnapshot : Bytes
  epochHeads : Bytes
  layoutParams : LayoutParams
  l : Layout

def parsePrefix (bytes : Bytes) (plaintextLength : ℤ) (nh : ℕ) : Except MlsError HeaderPrefix :=
  if ¬(0 < plaintextLength ∧ plaintextLength ≤ MAX_SAFE_INTEGER) then throw attachmentError
  else do
    let layoutParams : LayoutParams := {
      plaintextLength := plaintextLength
      segmentMax := SEGMENT_MAX
      epochLength := ATTACHMENT_EPOCH_LENGTH
      nh := nh }
    let l ← layout layoutParams
    let neededSize := l.epochHeadsOffset + l.nEp * nh
    if bytes.length < neededSize then throw attachmentError
    else pure {
      salt := slice bytes 0 32
      storedCommitment := slice bytes 32 (32 + nh)
      storedSnapshot := slice bytes (32 + nh) (32 + 2 * nh)
      epochHeads := slice bytes l.epochHeadsOffset (l.epochHeadsOffset + l.nEp * nh)
      layoutParams := layoutParams
      l := l }

def openCommitment (cek objectId salt storedCommitment : Bytes) (crypto : SealCrypto) :
    Except MlsError SealState :=
  startOpen cek (sealParams crypto salt) objectId storedCommitment crypto

def checkRoot (state : SealState) (header : HeaderPrefix) (refSnapshot : Bytes) :
    Except MlsError Unit := do
  let root ← epochTreeRoot state header.l.nSeg header.epochHeads
  if !constantTimeEqual root refSnapshot || !constantTimeEqual root header.storedSnapshot then
    throw attachmentError
  else pure ()

def verifyRoot (cek objectId : Bytes) (header : HeaderPrefix) (refSnapshot : Bytes)
    (crypto : SealCrypto) : Except MlsError SealState := do
  let state ← openCommitment cek objectId header.salt header.storedCommitment crypto
  checkRoot state header refSnapshot
  pure state

structure HeaderContext where
  state : SealState
  header : HeaderPrefix
  metadata : Bytes

def verifyEpochRun (ctx : HeaderContext) (epoch : ℕ) : Except MlsError Unit :=
  let l := ctx.header.l
  let layoutParams := ctx.header.layoutParams
  if epoch ≥ l.nEp then throw attachmentError
  else do
    let perEpoch := 2 ^ layoutParams.epochLength
    let first := epoch * perEpoch
    let count := min perEpoch (l.nSeg - first)
    let metaLen := layoutParams.nh + 16
    let runStart := first * metaLen
    let runEnd := runStart + count * metaLen
    let epochRun := slice ctx.metadata runStart runEnd
    let head ← epochHead ctx.state epochRun
    let storedHeadOffset := epoch * ctx.state.crypto.kdf.size
    let storedHead :=
      slice ctx.header.epochHeads storedHeadOffset (storedHeadOffset + ctx.state.crypto.kdf.size)
    if !constantTimeEqual head storedHead then throw attachmentError else pure ()

def openBlock (ctx : HeaderContext) (index : ℕ) (block : Bytes) : Except MlsError Bytes :=
  let l := ctx.header.l
  let layoutParams := ctx.header.layoutParams
  if index ≥ l.nSeg then throw attachmentError
  else do
    let ctLen ← segmentLength l layoutParams index
    if block.length ≠ ctLen then throw attachmentError
    else do
      let metaLen := layoutParams.nh + 16
      let metaOffset := index * metaLen
      let storedLeaf := slice ctx.metadata metaOffset (metaOffset + metaLen)
      let tag := storedLeaf.drop layoutParams.nh
      let recomputedLeaf ← segmentLeaf ctx.state block tag
      if !constantTimeEqual recomputedLeaf storedLeaf then throw attachmentError
      else
        let isFinal := index == l.nSeg - 1
        openSegment ctx.state index isFinal block tag none []

/-! ## The stream -/

/-- Reads from the source until `n` bytes are queued and moves them into `dst`. -/
def takeInto (dst : Bytes) (offset n : ℕ) (q : Queue UInt8) :
    Except MlsError (Bytes × Queue UInt8) :=
  match q.take (fun _ => true) n with
  | none => throw attachmentError
  | some (x, q) => do
    let dst ← setBytes dst x offset
    pure (dst, q)

/-- Skips the padding in front of the blocks, each piece of which is zero. -/
def skipPadding (toSkip : ℕ) (q : Queue UInt8) : Except MlsError (Queue UInt8) :=
  match q.take (fun first => isZeroRegion first 0 first.length) toSkip with
  | none => throw attachmentError
  | some (_, q) => pure q

/-- The run of an epoch is read behind the runs before it and checked there. -/
def readEpochRun (state : SealState) (header : HeaderPrefix)
    (read : Bytes × Queue UInt8) (e : ℕ) : Except MlsError (Bytes × Queue UInt8) := do
  let perEpoch := 2 ^ header.layoutParams.epochLength
  let first := e * perEpoch
  let count := min perEpoch (header.l.nSeg - first)
  let read ← takeInto read.1 (first * header.l.metaLen) (count * header.l.metaLen) read.2
  verifyEpochRun { state := state, header := header, metadata := read.1 } e
  pure read

/-- What `start` does before anything is emitted. -/
def startStream (cek : Bytes) (ref : AttachmentRef) (l : Layout) (q : Queue UInt8)
    (crypto : SealCrypto) : Except MlsError (HeaderContext × Queue UInt8) := do
  let nh := crypto.kdf.size
  let prefixSize := 32 + nh
  let headsEnd := l.epochHeadsOffset + l.nEp * nh
  let read ← takeInto (List.replicate headsEnd 0) 0 prefixSize q
  let state ←
    openCommitment cek ref.objectId (slice read.1 0 32) (slice read.1 32 prefixSize) crypto
  let read ← takeInto read.1 prefixSize (headsEnd - prefixSize) read.2
  let header ← parsePrefix read.1 ref.plaintextLength nh
  checkRoot state header ref.snapshot
  let read ← (List.range l.nEp).foldlM (readEpochRun state header)
    (List.replicate (l.metaLen * l.nSeg) 0, read.2)
  let q ← skipPadding (l.firstBlockOffset - l.headerSize) read.2
  pure ({ state := state, header := header, metadata := read.1 }, q)

/-- What `pull` does: it emits the next segment, or closes the stream. -/
def pullStream (ctx : HeaderContext) (blockIndex : ℕ) (q : Queue UInt8) :
    Except MlsError (Option (Bytes × Queue UInt8)) :=
  let l := ctx.header.l
  if blockIndex ≥ l.nSeg then
    if q.extra > 0 then throw attachmentError else pure none
  else do
    let blockLen ← segmentLength l ctx.header.layoutParams blockIndex
    let read ← takeInto (List.replicate blockLen 0) 0 blockLen q
    let plaintext ← openBlock ctx blockIndex read.1
    pure (some (plaintext, read.2))

/-- What a stream has emitted, and how it ended. -/
structure StreamOutcome where
  emitted : List Bytes
  ended : Except MlsError Unit

def StreamOutcome.failed : StreamOutcome := ⟨[], .error attachmentError⟩

def StreamOutcome.after (plaintext : Bytes) (outcome : StreamOutcome) : StreamOutcome where
  emitted := plaintext :: outcome.emitted
  ended := outcome.ended

/-- Pulls until the stream is closed. -/
def pulls (ctx : HeaderContext) : ℕ → ℕ → Queue UInt8 → StreamOutcome
  | 0, _, _ => ⟨[], .error (nonTermination "pull")⟩
  | fuel + 1, blockIndex, q =>
    match pullStream ctx blockIndex q with
    | .error _ => .failed
    | .ok none => ⟨[], .ok ()⟩
    | .ok (some (plaintext, q)) => (pulls ctx fuel (blockIndex + 1) q).after plaintext

/-- `ciphertext` is the list of the chunks its stream delivers. -/
def decryptAttachmentStream (cek : Bytes) (ref : AttachmentRef) (ciphertext : List Bytes)
    (crypto : SealCrypto) : Except MlsError StreamOutcome := do
  validateAttachmentRef ref (some crypto.kdf.size)
  assertCekLength cek
  if ref.plaintextLength ≤ 0 ∨ ref.plaintextLength > MAX_SAFE_INTEGER then throw attachmentError
  else do
    let l ← layout (layoutParams ref.plaintextLength crypto)
    match startStream cek ref l (.ofSource ciphertext) crypto with
    | .error _ => pure .failed
    | .ok (ctx, q) => pure (pulls ctx (l.nSeg + 1) 0 q)

/-! ## Reading from the queue -/

/-- `dst` is filled up to `k` with the bytes from `base` on, and the queue stands
behind them. -/
structure Reads (bytes : Bytes) (base : ℕ) (dst : Bytes) (k : ℕ) (q : Queue UInt8) : Prop where
  standing : q.At bytes (base + k)
  copied : slice dst 0 k = slice bytes base (base + k)

variable {bytes dst : Bytes} {base k n pos : ℕ} {q : Queue UInt8}

theorem reads_zero (h : q.At bytes pos) (dst : Bytes) : Reads bytes pos dst 0 q :=
  ⟨h, by simp [slice]⟩

/-- There are enough bytes, and they fill `dst` on, or reading fails. -/
theorem Reads.takeInto (h : Reads bytes base dst k q) (hfit : k + n ≤ dst.length) :
    if base + (k + n) ≤ bytes.length then
      ∃ dst' q', takeInto dst k n q = .ok (dst', q') ∧ dst'.length = dst.length ∧
        Reads bytes base dst' (k + n) q'
    else WebcryptoMls.takeInto dst k n q = .error attachmentError := by
  have htake := h.standing.take (fun _ => true) n
  have hcheck : (fun x : Bytes => x.all fun _ => true) = fun _ => true := by
    ext x
    simp
  rw [hcheck] at htake
  unfold WebcryptoMls.takeInto
  by_cases hle : base + (k + n) ≤ bytes.length
  · rw [if_pos ⟨by omega, by simp⟩] at htake
    obtain ⟨q', htake, hat⟩ := htake
    have hlen : (slice bytes (base + k) (base + k + n)).length = n := by
      rw [length_slice (by omega)]
      omega
    have hset : setBytes dst (slice bytes (base + k) (base + k + n)) k = .ok _ :=
      setBytes_ok (by omega)
    rw [if_pos hle]
    refine ⟨_, q', by simp only [htake, hset, ok_bind]; rfl, length_overwrite (by omega),
      by rwa [← Nat.add_assoc], ?_⟩
    exact slice_overwrite_next hfit (by omega) h.copied
  · rw [if_neg (by omega)] at htake
    simp only [htake, if_neg hle]
    rfl

theorem Reads.of_takeInto {read : Bytes × Queue UInt8} (h : Reads bytes base dst k q)
    (hfit : k + n ≤ dst.length) (htake : WebcryptoMls.takeInto dst k n q = .ok read) :
    read.1.length = dst.length ∧ Reads bytes base read.1 (k + n) read.2 := by
  have hspec := h.takeInto hfit
  split_ifs at hspec with hle
  · obtain ⟨dst', q', hok, hlen, hreads⟩ := hspec
    obtain rfl := Except.ok.inj (hok.symm.trans htake)
    exact ⟨hlen, hreads⟩
  · rw [hspec] at htake
    cases htake

theorem Reads.slice {start stop : ℕ} (h : Reads bytes base dst k q) (hle : stop ≤ k) :
    Slices.slice dst start stop = Slices.slice bytes (base + start) (base + stop) := by
  rw [← slice_slice bytes (show base + stop ≤ base + k by omega), ← h.copied,
    slice_slice dst (by omega), Nat.zero_add, Nat.zero_add]

/-- The padding is there and zero, or skipping it fails. -/
theorem skipPadding_spec (h : q.At bytes pos) (n : ℕ) :
    if pos + n ≤ bytes.length ∧ isZeroRegion bytes pos (pos + n) then
      ∃ q', skipPadding n q = .ok q' ∧ q'.At bytes (pos + n)
    else skipPadding n q = .error attachmentError := by
  have htake := h.take (fun b => b == 0) n
  have hcheck : (fun x : Bytes => x.all fun b => b == 0) =
      fun first => isZeroRegion first 0 first.length := by
    ext x
    rw [Bool.eq_iff_iff, isZeroRegion_iff, slice_all, Nat.sub_zero, List.eq_replicate_iff]
    simp
  rw [hcheck] at htake
  have hzero : pos + n ≤ bytes.length →
      ((slice bytes pos (pos + n)).all (fun b => b == 0) = true ↔
        isZeroRegion bytes pos (pos + n) = true) := by
    intro hle
    rw [isZeroRegion_iff, List.eq_replicate_iff, length_slice hle]
    simp
  unfold skipPadding
  by_cases hle : pos + n ≤ bytes.length
  · simp only [hle, true_and, hzero hle] at htake ⊢
    split_ifs at htake ⊢
    · obtain ⟨q', htake, hat⟩ := htake
      exact ⟨q', by simp only [htake]; rfl, hat⟩
    · simp only [htake]
      rfl
  · simp only [hle, false_and, if_false] at htake ⊢
    simp only [htake]
    rfl

/-! ## What is checked -/

/-- The prefix of an object. -/
def headerOf (plaintextLength : ℤ) (crypto : SealCrypto) (l : Layout) (bytes : Bytes) :
    HeaderPrefix where
  salt := slice bytes 0 32
  storedCommitment := slice bytes 32 (32 + crypto.kdf.size)
  storedSnapshot := slice bytes (32 + crypto.kdf.size) (32 + 2 * crypto.kdf.size)
  epochHeads := headsOf l bytes
  layoutParams := layoutParams plaintextLength crypto
  l := l

variable {crypto : SealCrypto} {plaintextLength : ℤ} {l : Layout} {state : SealState}
  {cek objectId snapshot metadata : Bytes}

theorem parsePrefix_ok {head : Bytes} (hl : layout (layoutParams plaintextLength crypto) = .ok l)
    (hlong : l.metaOffset ≤ head.length)
    (hagree : slice head 0 l.metaOffset = slice bytes 0 l.metaOffset) :
    parsePrefix head plaintextLength crypto.kdf.size =
      .ok (headerOf plaintextLength crypto l bytes) := by
  have hfacts := layout_eq_ok SEGMENT_MAX_pos hl
  have hend : l.metaOffset = l.epochHeadsOffset + l.nEp * crypto.kdf.size := hfacts.metaOffset
  have hoffset : l.epochHeadsOffset = 32 + 2 * crypto.kdf.size := hfacts.heads
  have hpos : 0 < plaintextLength := hfacts.pos
  have hsafe : plaintextLength ≤ MAX_SAFE_INTEGER := hfacts.safe
  have hslice : ∀ start stop, stop ≤ l.metaOffset → slice head start stop = slice bytes start stop :=
    fun start stop hle => slice_of_agree hagree hle
  unfold parsePrefix
  rw [if_neg (not_not.mpr ⟨hpos, hsafe⟩)]
  change (layout (layoutParams plaintextLength crypto) >>= _) = _
  rw [hl, ok_bind, if_neg (by omega), ← hend, hslice _ _ (by omega), hslice _ _ (by omega),
    hslice _ _ (by omega), hslice _ _ le_rfl]
  rfl

theorem checkRoot_eq_ok :
    checkRoot state (headerOf plaintextLength crypto l bytes) snapshot = .ok () ↔
      epochTreeRoot state l.nSeg (headsOf l bytes) = .ok snapshot ∧
      slice bytes (32 + crypto.kdf.size) (32 + 2 * crypto.kdf.size) = snapshot := by
  unfold checkRoot
  rw [bind_eq_ok]
  constructor
  · rintro ⟨root, hroot, h⟩
    split_ifs at h with hcheck
    simp only [Bool.or_eq_true, Bool.not_eq_true', not_or, Bool.not_eq_false,
      constantTimeEqual_iff] at hcheck
    obtain ⟨rfl, hstored⟩ := hcheck
    exact ⟨hroot, hstored.symm⟩
  · rintro ⟨hroot, hstored⟩
    refine ⟨_, hroot, ?_⟩
    have hself := constantTimeEqual_iff.mpr (rfl : snapshot = snapshot)
    simp [headerOf, hstored, hself]
    rfl

/-- The run of leaves of an epoch is what its head is of. -/
theorem verifyEpochRun_eq_ok (hfacts : LayoutFacts (layoutParams plaintextLength crypto) l)
    (hcrypto : state.crypto = crypto) {e : ℕ} (he : e < l.nEp)
    (hrun : slice metadata (e * perEpoch * l.metaLen)
      (e * perEpoch * l.metaLen + min perEpoch (l.nSeg - e * perEpoch) * l.metaLen) =
        runOf l bytes e) :
    verifyEpochRun ⟨state, headerOf plaintextLength crypto l bytes, metadata⟩ e = .ok () ↔
      epochHead state (runOf l bytes e) = .ok (headBytes l crypto.kdf.size bytes e) := by
  have hmetaLen : crypto.kdf.size + 16 = l.metaLen := hfacts.metaLen.symm
  have hstop : l.epochHeadsOffset + (e + 1) * crypto.kdf.size ≤ l.metaOffset := by
    rw [hfacts.metaOffset]
    exact Nat.add_le_add_left (Nat.mul_le_mul_right _ he) _
  have hhead : slice (headsOf l bytes) (e * crypto.kdf.size)
      (e * crypto.kdf.size + crypto.kdf.size) = headBytes l crypto.kdf.size bytes e := by
    unfold headsOf headBytes
    rw [← Nat.succ_mul, slice_slice bytes hstop]
  unfold verifyEpochRun
  simp only [headerOf, layoutParams, ge_iff_le, not_le.mpr he, if_false, hcrypto, hmetaLen]
  change (epochHead state (slice metadata (e * perEpoch * l.metaLen)
    (e * perEpoch * l.metaLen + min perEpoch (l.nSeg - e * perEpoch) * l.metaLen)) >>= _) = _ ↔ _
  rw [hrun, hhead, bind_eq_ok]
  constructor
  · rintro ⟨head, hok, h⟩
    split_ifs at h with hcheck
    simp only [Bool.not_eq_true', Bool.not_eq_false, constantTimeEqual_iff] at hcheck
    rw [hok, hcheck]
  · intro hok
    refine ⟨_, hok, ?_⟩
    rw [if_neg (by simp)]
    rfl

/-- A block that opens is as long as its segment, its leaf is the stored one, and it
decrypts. -/
theorem openBlock_eq_ok (hfacts : LayoutFacts (layoutParams plaintextLength crypto) l) {i : ℕ}
    (hi : i < l.nSeg)
    (hleaf : slice metadata (i * l.metaLen) (i * l.metaLen + l.metaLen) = leafBytes l bytes i)
    {block plaintext : Bytes} :
    openBlock ⟨state, headerOf plaintextLength crypto l bytes, metadata⟩ i block =
        .ok plaintext ↔
      block.length = min SEGMENT_MAX (plaintextLength.toNat - i * SEGMENT_MAX) ∧
      segmentLeaf state block (tagBytes l crypto.kdf.size bytes i) = .ok (leafBytes l bytes i) ∧
      openSegment state i (i == l.nSeg - 1) block (tagBytes l crypto.kdf.size bytes i) none [] =
        .ok plaintext := by
  have hmetaLen : crypto.kdf.size + 16 = l.metaLen := hfacts.metaLen.symm
  have htag : (leafBytes l bytes i).drop crypto.kdf.size = tagBytes l crypto.kdf.size bytes i := by
    simp only [leafBytes, tagBytes, drop_slice]
  have hlength : segmentLength l (layoutParams plaintextLength crypto) i =
      .ok (min SEGMENT_MAX (plaintextLength.toNat - i * SEGMENT_MAX)) :=
    segmentLength_eq_ok hfacts hi
  have hnh : (layoutParams plaintextLength crypto).nh = crypto.kdf.size := rfl
  unfold openBlock
  simp only [headerOf, ge_iff_le, not_le.mpr hi, if_false, hlength, ok_bind, hnh, hmetaLen, hleaf,
    htag]
  by_cases hlen : block.length = min SEGMENT_MAX (plaintextLength.toNat - i * SEGMENT_MAX)
  · rw [if_neg (not_not.mpr hlen), bind_eq_ok, and_iff_right hlen]
    constructor
    · rintro ⟨leaf, hok, h⟩
      split_ifs at h with hcheck
      simp only [Bool.not_eq_true', Bool.not_eq_false, constantTimeEqual_iff] at hcheck
      exact ⟨by rw [hok, hcheck], h⟩
    · rintro ⟨hok, h⟩
      refine ⟨_, hok, ?_⟩
      rw [if_neg (by simp)]
      exact h
  · rw [if_pos hlen]
    constructor
    · intro h
      cases h
    · intro h
      exact absurd h.1 hlen

/-! ## The start -/

/-- What the header of an object is checked for. -/
structure HeaderVerified (cek objectId snapshot : Bytes) (crypto : SealCrypto) (l : Layout)
    (bytes : Bytes) (state : SealState) : Prop where
  opened : startOpen cek (sealParams crypto (slice bytes 0 32)) objectId
    (slice bytes 32 (32 + crypto.kdf.size)) crypto = .ok state
  root : epochTreeRoot state l.nSeg (headsOf l bytes) = .ok snapshot
  stored : slice bytes (32 + crypto.kdf.size) (32 + 2 * crypto.kdf.size) = snapshot

/-- The number of bytes in the runs of the first epochs. -/
def runsEnd (l : Layout) (e : ℕ) : ℕ := min (e * perEpoch) l.nSeg * l.metaLen

/-- The metadata after the runs of the first epochs: they are copied and pass. -/
structure RunsRead (l : Layout) (nh : ℕ) (state : SealState) (bytes : Bytes) (k : ℕ)
    (read : Bytes × Queue UInt8) : Prop where
  length : read.1.length = l.nSeg * l.metaLen
  reads : Reads bytes l.metaOffset read.1 (runsEnd l k) read.2
  heads : ∀ e < k, epochHead state (runOf l bytes e) = .ok (headBytes l nh bytes e)

theorem runsEnd_lt {e : ℕ} (hfacts : LayoutFacts (layoutParams plaintextLength crypto) l)
    (he : e < l.nEp) :
    runsEnd l e = e * perEpoch * l.metaLen ∧
      runsEnd l e + min perEpoch (l.nSeg - e * perEpoch) * l.metaLen = runsEnd l (e + 1) ∧
      runsEnd l (e + 1) ≤ l.nSeg * l.metaLen ∧
      l.metaOffset + runsEnd l (e + 1) = l.metaOffset + epochEnd l e * l.metaLen := by
  have hstart : e * perEpoch < l.nSeg := (hfacts.ep e).mp he
  have hend : e * perEpoch + min perEpoch (l.nSeg - e * perEpoch) =
      min ((e + 1) * perEpoch) l.nSeg := by
    rw [Nat.succ_mul]
    omega
  unfold runsEnd epochEnd
  rw [min_eq_left hstart.le, ← Nat.add_mul, hend]
  exact ⟨rfl, rfl, Nat.mul_le_mul_right _ (min_le_right ..), rfl⟩

theorem readEpochRun_spec (hfacts : LayoutFacts (layoutParams plaintextLength crypto) l)
    (hcrypto : state.crypto = crypto) {e : ℕ} (he : e < l.nEp) {read : Bytes × Queue UInt8}
    (h : RunsRead l crypto.kdf.size state bytes e read) :
    if l.metaOffset + runsEnd l (e + 1) ≤ bytes.length ∧
        epochHead state (runOf l bytes e) = .ok (headBytes l crypto.kdf.size bytes e) then
      ∃ read', readEpochRun state (headerOf plaintextLength crypto l bytes) read e = .ok read' ∧
        RunsRead l crypto.kdf.size state bytes (e + 1) read'
    else
      ∀ read', readEpochRun state (headerOf plaintextLength crypto l bytes) read e ≠ .ok read' := by
  obtain ⟨hstart, hnext, hfit, hend⟩ := runsEnd_lt hfacts he
  have hread := h.reads
  rw [hstart] at hread hnext
  have htake := hread.takeInto (n := min perEpoch (l.nSeg - e * perEpoch) * l.metaLen)
    (by rw [hnext, h.length]; exact hfit)
  rw [hnext] at htake
  have hround : readEpochRun state (headerOf plaintextLength crypto l bytes) read e = (do
      let read ← WebcryptoMls.takeInto read.1 (e * perEpoch * l.metaLen)
        (min perEpoch (l.nSeg - e * perEpoch) * l.metaLen) read.2
      verifyEpochRun ⟨state, headerOf plaintextLength crypto l bytes, read.1⟩ e
      pure read) := rfl
  by_cases hle : l.metaOffset + runsEnd l (e + 1) ≤ bytes.length
  · rw [if_pos hle] at htake
    obtain ⟨dst, q', htake, hlen, hreads⟩ := htake
    have hrun : slice dst (e * perEpoch * l.metaLen)
        (e * perEpoch * l.metaLen + min perEpoch (l.nSeg - e * perEpoch) * l.metaLen) =
          runOf l bytes e := by
      rw [hnext, hreads.slice le_rfl, hend]
      rfl
    have hverify := verifyEpochRun_eq_ok hfacts hcrypto he hrun
    simp only [hround, htake, ok_bind, hle, true_and, ← hverify]
    split_ifs with hok
    · refine ⟨_, by rw [hok]; rfl, hlen.trans h.length, hreads, fun e' he' => ?_⟩
      rcases Nat.lt_succ_iff_lt_or_eq.mp he' with hlt | rfl
      · exact h.heads e' hlt
      · exact hverify.mp hok
    · intro read' hread'
      obtain ⟨_, hunit, _⟩ := bind_eq_ok.mp hread'
      exact hok hunit
  · rw [if_neg hle] at htake
    rw [if_neg (fun h => hle h.1)]
    intro read' hread'
    simp only [hround, htake] at hread'
    cases hread'

/-- The context blocks are opened in. -/
def contextOf (plaintextLength : ℤ) (crypto : SealCrypto) (l : Layout) (state : SealState)
    (bytes : Bytes) : HeaderContext where
  state := state
  header := headerOf plaintextLength crypto l bytes
  metadata := slice bytes l.metaOffset l.headerSize

theorem runsEnd_nEp (hfacts : LayoutFacts (layoutParams plaintextLength crypto) l) :
    l.metaOffset + runsEnd l l.nEp = l.headerSize := by
  have hall : l.nSeg ≤ l.nEp * perEpoch := not_lt.mp (mt (hfacts.ep l.nEp).mpr (lt_irrefl _))
  unfold runsEnd
  rw [min_eq_right hall, hfacts.header]

theorem runsRead_zero (hq : q.At bytes l.metaOffset) (nh : ℕ) :
    RunsRead l nh state bytes 0 (List.replicate (l.metaLen * l.nSeg) 0, q) := by
  refine ⟨by simp [Nat.mul_comm], ?_, by simp⟩
  have hzero : runsEnd l 0 = 0 := by simp [runsEnd]
  rw [hzero]
  exact reads_zero hq _

/-- All runs are read: the metadata is the object's, and the queue is at the padding. -/
theorem RunsRead.all {nh : ℕ} {read : Bytes × Queue UInt8}
    (hfacts : LayoutFacts (layoutParams plaintextLength crypto) l)
    (h : RunsRead l nh state bytes l.nEp read) :
    read.1 = slice bytes l.metaOffset l.headerSize ∧ read.2.At bytes l.headerSize := by
  have hend := runsEnd_nEp hfacts
  have hlen : read.1.length = runsEnd l l.nEp := by
    have hheader := hfacts.header
    rw [h.length]
    omega
  have hcopied := h.reads.copied
  have hat := h.reads.standing
  rw [hend] at hcopied hat
  rw [← hlen, slice_all] at hcopied
  exact ⟨hcopied, hat⟩

/-- What the stream checks before it emits anything. -/
structure Started (cek : Bytes) (ref : AttachmentRef) (crypto : SealCrypto) (l : Layout)
    (bytes : Bytes) (state : SealState) : Prop where
  header : HeaderVerified cek ref.objectId ref.snapshot crypto l bytes state
  heads : ∀ e < l.nEp, epochHead state (runOf l bytes e) = .ok (headBytes l crypto.kdf.size bytes e)
  long : l.firstBlockOffset ≤ bytes.length
  gap : isZeroRegion bytes l.headerSize l.firstBlockOffset = true

variable {ref : AttachmentRef}

theorem Started.of_startStream (hl : layout (layoutParams ref.plaintextLength crypto) = .ok l)
    (hq : q.At bytes 0) {read : HeaderContext × Queue UInt8}
    (h : startStream cek ref l q crypto = .ok read) :
    ∃ state, Started cek ref crypto l bytes state ∧
      read.1 = contextOf ref.plaintextLength crypto l state bytes ∧
      read.2.At bytes l.firstBlockOffset := by
  have hfacts := layout_eq_ok SEGMENT_MAX_pos hl
  have hend : l.metaOffset = l.epochHeadsOffset + l.nEp * crypto.kdf.size := hfacts.metaOffset
  have hoffset : l.epochHeadsOffset = 32 + 2 * crypto.kdf.size := hfacts.heads
  have hgap := hfacts.gap
  -- The fixed prefix and the heads.
  obtain ⟨first, hfirst, h⟩ := bind_eq_ok.mp h
  obtain ⟨hlen, hreads⟩ := (reads_zero hq _).of_takeInto (by simp; omega) hfirst
  rw [List.length_replicate] at hlen
  obtain ⟨state, hstate, h⟩ := bind_eq_ok.mp h
  rw [hreads.slice (by omega), hreads.slice (by omega)] at hstate
  simp only [Nat.zero_add] at hstate
  obtain ⟨second, hsecond, h⟩ := bind_eq_ok.mp h
  rw [← Nat.zero_add (32 + crypto.kdf.size)] at hsecond
  obtain ⟨hlen', hreads'⟩ := hreads.of_takeInto (by omega) hsecond
  rw [show 0 + (32 + crypto.kdf.size) + (l.epochHeadsOffset + l.nEp * crypto.kdf.size -
    (0 + (32 + crypto.kdf.size))) = l.metaOffset by omega] at hreads'
  obtain ⟨header, hheader, h⟩ := bind_eq_ok.mp h
  have hcopied := hreads'.copied
  rw [Nat.zero_add] at hcopied
  rw [parsePrefix_ok hl (by omega) hcopied] at hheader
  obtain rfl := Except.ok.inj hheader
  obtain ⟨_, hroot, h⟩ := bind_eq_ok.mp h
  obtain ⟨hroot, hstored⟩ := checkRoot_eq_ok.mp hroot
  obtain ⟨hcrypto, -⟩ := startOpen_eq_ok hstate
  -- The runs of the epochs, and the padding.
  obtain ⟨runs, hruns, h⟩ := bind_eq_ok.mp h
  have hat := hreads'.standing
  rw [Nat.zero_add] at hat
  have hread : RunsRead l crypto.kdf.size state bytes l.nEp runs := by
    refine foldlM_range_inv (runsRead_zero hat _) (fun e he read read' hread hround => ?_) hruns
    have hspec := readEpochRun_spec hfacts hcrypto he hread
    split_ifs at hspec
    · obtain ⟨read'', hok, hread''⟩ := hspec
      obtain rfl := Except.ok.inj (hok.symm.trans hround)
      exact hread''
    · exact absurd hround (hspec read')
  obtain ⟨hmetadata, hpadding⟩ := hread.all hfacts
  obtain ⟨q', hskip, h⟩ := bind_eq_ok.mp h
  obtain rfl := Except.ok.inj h
  have hspec := skipPadding_spec hpadding (l.firstBlockOffset - l.headerSize)
  rw [show l.headerSize + (l.firstBlockOffset - l.headerSize) = l.firstBlockOffset by omega] at hspec
  split_ifs at hspec with hzero
  · obtain ⟨q'', hok, hat'⟩ := hspec
    obtain rfl := Except.ok.inj (hok.symm.trans hskip)
    refine ⟨state, ⟨⟨hstate, hroot, hstored⟩, hread.heads, hzero.1, hzero.2⟩, ?_, hat'⟩
    rw [contextOf, hmetadata]
  · rw [hspec] at hskip
    cases hskip

theorem Started.startStream (hl : layout (layoutParams ref.plaintextLength crypto) = .ok l)
    (hq : q.At bytes 0) (h : Started cek ref crypto l bytes state) :
    ∃ q', startStream cek ref l q crypto =
        .ok (contextOf ref.plaintextLength crypto l state bytes, q') ∧
      q'.At bytes l.firstBlockOffset := by
  have hfacts := layout_eq_ok SEGMENT_MAX_pos hl
  have hend : l.metaOffset = l.epochHeadsOffset + l.nEp * crypto.kdf.size := hfacts.metaOffset
  have hoffset : l.epochHeadsOffset = 32 + 2 * crypto.kdf.size := hfacts.heads
  have hheader := hfacts.header
  have hgap := hfacts.gap
  have hlong := h.long
  obtain ⟨hcrypto, -⟩ := startOpen_eq_ok h.header.opened
  -- The fixed prefix and the heads.
  have hfirst := (reads_zero hq (List.replicate l.metaOffset 0)).takeInto
    (n := 32 + crypto.kdf.size) (by simp; omega)
  rw [if_pos (by omega)] at hfirst
  obtain ⟨dst, q₁, hfirst, hlen, hreads⟩ := hfirst
  rw [List.length_replicate] at hlen
  have hcommitment : openCommitment cek ref.objectId (slice dst 0 32)
      (slice dst 32 (32 + crypto.kdf.size)) crypto = .ok state := by
    rw [hreads.slice (by omega), hreads.slice (by omega), openCommitment]
    simpa using h.header.opened
  have hsecond := hreads.takeInto (n := l.metaOffset - (32 + crypto.kdf.size)) (by omega)
  rw [if_pos (by omega), Nat.zero_add,
    show 32 + crypto.kdf.size + (l.metaOffset - (32 + crypto.kdf.size)) = l.metaOffset by omega]
    at hsecond
  obtain ⟨dst', q₂, hsecond, hlen', hreads'⟩ := hsecond
  have hcopied := hreads'.copied
  have hat := hreads'.standing
  rw [Nat.zero_add] at hcopied hat
  have hparse := parsePrefix_ok hl (by omega) hcopied
  have hroot : checkRoot state (headerOf ref.plaintextLength crypto l bytes) ref.snapshot = .ok () :=
    checkRoot_eq_ok.mpr ⟨h.header.root, h.header.stored⟩
  -- The runs of the epochs, and the padding.
  obtain ⟨runs, hruns, hread⟩ := foldlM_range_ok (runsRead_zero hat crypto.kdf.size)
    fun e he read hread => by
      have hspec := readEpochRun_spec hfacts hcrypto he hread
      obtain ⟨-, -, hle, -⟩ := runsEnd_lt hfacts he
      rw [if_pos ⟨by omega, h.heads e he⟩] at hspec
      exact hspec
  obtain ⟨hmetadata, hpadding⟩ := hread.all hfacts
  have hskip := skipPadding_spec hpadding (l.firstBlockOffset - l.headerSize)
  rw [show l.headerSize + (l.firstBlockOffset - l.headerSize) = l.firstBlockOffset by omega,
    if_pos ⟨hlong, h.gap⟩] at hskip
  obtain ⟨q', hskip, hat'⟩ := hskip
  refine ⟨q', ?_, hat'⟩
  unfold WebcryptoMls.startStream
  simp only [← hend, hfirst, ok_bind, hcommitment, hsecond, hparse, hroot]
  rw [hruns, ok_bind, hskip, contextOf, hmetadata]
  rfl

/-! ## The pulls -/

/-- What a stream emits whose rounds go on until one fails. -/
def emitAll (f : ℕ → Except MlsError Bytes) (final : Except MlsError Unit) : List ℕ → StreamOutcome
  | [] => ⟨[], final⟩
  | i :: is =>
    match f i with
    | .error _ => .failed
    | .ok plaintext => (emitAll f final is).after plaintext

theorem emitAll_eq_ok {f : ℕ → Except MlsError Bytes} {final : Except MlsError Unit} {is : List ℕ}
    {parts : List Bytes} :
    emitAll f final is = ⟨parts, .ok ()⟩ ↔ is.mapM f = .ok parts ∧ final = .ok () := by
  induction is generalizing parts with
  | nil => simp [emitAll, pure, Except.pure]
  | cons i is ih =>
    rw [List.mapM_cons]
    unfold emitAll
    cases hi : f i with
    | error err => simp [StreamOutcome.failed, bind, Except.bind]
    | ok plaintext =>
      simp only [ok_bind, bind_eq_ok, StreamOutcome.after, StreamOutcome.mk.injEq]
      constructor
      · rintro ⟨rfl, hended⟩
        obtain ⟨hmap, hfinal⟩ := ih.mp (show emitAll f final is = ⟨_, .ok ()⟩ by rw [← hended])
        exact ⟨⟨_, hmap, rfl⟩, hfinal⟩
      · rintro ⟨⟨rest, hmap, h⟩, hfinal⟩
        obtain rfl := Except.ok.inj h
        rw [ih.mpr ⟨hmap, hfinal⟩]
        exact ⟨rfl, rfl⟩

theorem emitAll_emitted {f : ℕ → Except MlsError Bytes} {final : Except MlsError Unit} {is : List ℕ}
    {j : ℕ} {plaintext : Bytes} (h : (emitAll f final is).emitted[j]? = some plaintext) :
    ∃ i, is[j]? = some i ∧ f i = .ok plaintext := by
  induction is generalizing j with
  | nil => simp [emitAll] at h
  | cons i is ih =>
    unfold emitAll at h
    cases hi : f i with
    | error err => simp [hi, StreamOutcome.failed] at h
    | ok first =>
      rw [hi] at h
      cases j with
      | zero =>
        simp only [StreamOutcome.after, List.getElem?_cons_zero, Option.some.injEq] at h
        exact ⟨i, rfl, h ▸ hi⟩
      | succ j =>
        obtain ⟨i', hi', hok⟩ := ih h
        exact ⟨i', hi', hok⟩

theorem emitAll_ended {f : ℕ → Except MlsError Bytes} {final : Except MlsError Unit}
    (hfinal : final = .ok () ∨ final = .error attachmentError) (is : List ℕ) :
    (emitAll f final is).ended = .ok () ∨ (emitAll f final is).ended = .error attachmentError := by
  induction is with
  | nil => exact hfinal
  | cons i is ih =>
    unfold emitAll
    cases f i with
    | error err => exact .inr rfl
    | ok plaintext => exact ih

/-- The ciphertext of a segment, of its exact length. -/
def blockSlice (plaintextLength : ℤ) (l : Layout) (bytes : Bytes) (i : ℕ) : Bytes :=
  slice bytes (l.firstBlockOffset + i * SEGMENT_MAX)
    (l.firstBlockOffset + i * SEGMENT_MAX + min SEGMENT_MAX (plaintextLength.toNat - i * SEGMENT_MAX))

/-- Opens a segment of the bytes that have arrived. -/
def openAt (plaintextLength : ℤ) (crypto : SealCrypto) (l : Layout) (state : SealState)
    (bytes : Bytes) (i : ℕ) : Except MlsError Bytes :=
  if l.firstBlockOffset + i * SEGMENT_MAX +
      min SEGMENT_MAX (plaintextLength.toNat - i * SEGMENT_MAX) ≤ bytes.length then
    openBlock (contextOf plaintextLength crypto l state bytes) i
      (blockSlice plaintextLength l bytes i)
  else .error attachmentError

/-- Where a block starts, or the last one ends. -/
def blockStart (plaintextLength : ℤ) (l : Layout) (i : ℕ) : ℕ :=
  l.firstBlockOffset + min (i * SEGMENT_MAX) plaintextLength.toNat

/-- Whether the bytes end where the object does. -/
def endsAt (l : Layout) (bytes : Bytes) : Except MlsError Unit :=
  if bytes.length = l.totalSize then .ok () else .error attachmentError

theorem pullStream_end (hfacts : LayoutFacts (layoutParams plaintextLength crypto) l)
    (hq : q.At bytes (blockStart plaintextLength l l.nSeg)) :
    pullStream (contextOf plaintextLength crypto l state bytes) l.nSeg q =
      (endsAt l bytes).map fun _ => none := by
  have hextra := hq.extra
  have hend : blockStart plaintextLength l l.nSeg = l.totalSize := by
    have hall : plaintextLength.toNat ≤ l.nSeg * SEGMENT_MAX :=
      not_lt.mp (mt (hfacts.seg l.nSeg).mpr (lt_irrefl _))
    rw [blockStart, min_eq_right hall, hfacts.total]
    rfl
  rw [hend] at hextra
  unfold pullStream endsAt
  simp only [contextOf, headerOf, ge_iff_le, le_refl, if_true]
  by_cases hlen : bytes.length = l.totalSize
  · rw [if_pos hlen, if_neg (by omega)]
    rfl
  · rw [if_neg hlen, if_pos (by omega)]
    rfl

theorem pullStream_next (hfacts : LayoutFacts (layoutParams plaintextLength crypto) l) {i : ℕ}
    (hi : i < l.nSeg) (hq : q.At bytes (blockStart plaintextLength l i)) :
    (∀ plaintext, openAt plaintextLength crypto l state bytes i = .ok plaintext →
      ∃ q', pullStream (contextOf plaintextLength crypto l state bytes) i q =
          .ok (some (plaintext, q')) ∧ q'.At bytes (blockStart plaintextLength l (i + 1))) ∧
    ∀ err, openAt plaintextLength crypto l state bytes i = .error err →
      ∃ err', pullStream (contextOf plaintextLength crypto l state bytes) i q = .error err' := by
  have hstart : i * SEGMENT_MAX < plaintextLength.toNat := (hfacts.seg i).mp hi
  generalize hwidth : min SEGMENT_MAX (plaintextLength.toNat - i * SEGMENT_MAX) = width
  have hpos : blockStart plaintextLength l i = l.firstBlockOffset + i * SEGMENT_MAX := by
    rw [blockStart, min_eq_left hstart.le]
  have hnext : blockStart plaintextLength l (i + 1) = l.firstBlockOffset + i * SEGMENT_MAX + width := by
    rw [blockStart, Nat.succ_mul]
    omega
  rw [hpos] at hq
  have htake := (reads_zero hq (List.replicate width 0)).takeInto (n := width) (by simp)
  rw [Nat.zero_add] at htake
  have hpull : pullStream (contextOf plaintextLength crypto l state bytes) i q = (do
      let read ← takeInto (List.replicate width 0) 0 width q
      let plaintext ← openBlock (contextOf plaintextLength crypto l state bytes) i read.1
      pure (some (plaintext, read.2))) := by
    have hlength := segmentLength_eq_ok hfacts hi
    change _ = Except.ok (min SEGMENT_MAX (plaintextLength.toNat - i * SEGMENT_MAX)) at hlength
    rw [hwidth] at hlength
    unfold pullStream
    simp only [contextOf, headerOf, ge_iff_le, not_le.mpr hi, if_false, hlength, ok_bind]
  unfold openAt blockSlice
  rw [hwidth]
  by_cases hle : l.firstBlockOffset + i * SEGMENT_MAX + width ≤ bytes.length
  · rw [if_pos hle] at htake ⊢
    obtain ⟨dst, q', htake, hlen, hreads⟩ := htake
    have hdst : dst = slice bytes (l.firstBlockOffset + i * SEGMENT_MAX)
        (l.firstBlockOffset + i * SEGMENT_MAX + width) := by
      rw [← hreads.copied, show width = dst.length by simpa using hlen.symm, slice_all]
    have hat := hreads.standing
    rw [← hnext] at hat
    rw [← hdst, hpull, htake, ok_bind]
    constructor
    · intro plaintext hopen
      exact ⟨q', by simp only [hopen, ok_bind]; rfl, hat⟩
    · intro err hopen
      exact ⟨err, by simp only [hopen]; rfl⟩
  · rw [if_neg hle] at htake ⊢
    rw [hpull, htake]
    exact ⟨fun plaintext hopen => (nomatch hopen), fun err _ => ⟨attachmentError, rfl⟩⟩

/-- Pulling on emits one segment after the other, and closes where the object ends. -/
theorem pulls_eq (hfacts : LayoutFacts (layoutParams plaintextLength crypto) l) {k i : ℕ}
    {q : Queue UInt8} (hk : i + k = l.nSeg) (hq : q.At bytes (blockStart plaintextLength l i)) :
    pulls (contextOf plaintextLength crypto l state bytes) (k + 1) i q =
      emitAll (openAt plaintextLength crypto l state bytes) (endsAt l bytes)
        (List.range' i k) := by
  induction k generalizing i q with
  | zero =>
    obtain rfl : i = l.nSeg := hk
    unfold pulls
    rw [pullStream_end hfacts hq]
    unfold endsAt
    by_cases hlen : bytes.length = l.totalSize
    · rw [if_pos hlen]
      rfl
    · rw [if_neg hlen]
      rfl
  | succ k ih =>
    obtain ⟨hok, herror⟩ := pullStream_next hfacts (show i < l.nSeg by omega) hq
    rw [List.range'_succ]
    unfold pulls emitAll
    cases hopen : openAt plaintextLength crypto l state bytes i with
    | error err =>
      obtain ⟨err', hpull⟩ := herror err hopen
      rw [hpull]
    | ok plaintext =>
      obtain ⟨q', hpull, hq'⟩ := hok plaintext hopen
      rw [hpull]
      exact congrArg (StreamOutcome.after plaintext) (ih (by omega) hq')

/-! ## The stream and the whole object -/

/-- A reference the readers accept, and the key it is read with. -/
structure Readable (cek : Bytes) (ref : AttachmentRef) (crypto : SealCrypto) : Prop where
  cek : cek.length = CEK_LENGTH
  valid : validateAttachmentRef ref (some crypto.kdf.size) = .ok ()
  safe : ref.plaintextLength ≤ MAX_SAFE_INTEGER

/-- What `openObject` takes of a reference. -/
def AttachmentRef.object (ref : AttachmentRef) : ObjectRef where
  snapshot := ref.snapshot
  plaintextLength := ref.plaintextLength

theorem validateAttachmentRef_ok (h : validateAttachmentRef ref (some n) = .ok ()) :
    1 ≤ ref.objectId.length ∧ ref.objectId.length ≤ 255 ∧ 0 < ref.plaintextLength ∧
      ref.snapshot.length = n := by
  simp only [validateAttachmentRef] at h
  split_ifs at h with hversion hid hpos hmax hsnapshot
  omega

theorem assertCekLength_ok (h : cek.length = CEK_LENGTH) : assertCekLength cek = .ok () := by
  unfold assertCekLength
  rw [if_neg (not_not.mpr h)]
  rfl

/-- The stream goes wrong before it emits anything, or emits the segments one after
the other. -/
theorem decryptAttachmentStream_cases (chunks : List Bytes) (h : Readable cek ref crypto)
    (hl : layout (layoutParams ref.plaintextLength crypto) = .ok l) :
    (∃ state, Started cek ref crypto l chunks.flatten state ∧
      decryptAttachmentStream cek ref chunks crypto =
        .ok (emitAll (openAt ref.plaintextLength crypto l state chunks.flatten)
          (endsAt l chunks.flatten) (List.range l.nSeg))) ∨
    ((∀ state, ¬Started cek ref crypto l chunks.flatten state) ∧
      decryptAttachmentStream cek ref chunks crypto = .ok .failed) := by
  have hfacts := layout_eq_ok SEGMENT_MAX_pos hl
  have hq := Queue.at_ofSource chunks
  obtain ⟨-, -, hpos, -⟩ := validateAttachmentRef_ok h.valid
  have hsafe := h.safe
  unfold decryptAttachmentStream
  rw [h.valid, ok_bind, assertCekLength_ok h.cek, ok_bind, if_neg (by omega), hl, ok_bind]
  cases hstart : startStream cek ref l (.ofSource chunks) crypto with
  | error err =>
    refine .inr ⟨fun state hstarted => ?_, rfl⟩
    obtain ⟨q', hok, -⟩ := hstarted.startStream hl hq
    rw [hstart] at hok
    cases hok
  | ok read =>
    obtain ⟨state, hstarted, hctx, hat⟩ := Started.of_startStream hl hq hstart
    refine .inl ⟨state, hstarted, ?_⟩
    obtain ⟨ctx, q'⟩ := read
    subst hctx
    have hpulls : pulls (contextOf ref.plaintextLength crypto l state chunks.flatten)
        (l.nSeg + 1) 0 q' = _ :=
      pulls_eq hfacts (Nat.zero_add l.nSeg) (by simpa [blockStart] using hat)
    rw [List.range_eq_range']
    exact congrArg Except.ok hpulls

theorem metadata_leaf (hfacts : LayoutFacts (layoutParams plaintextLength crypto) l) {i : ℕ}
    (hi : i < l.nSeg) :
    slice (slice bytes l.metaOffset l.headerSize) (i * l.metaLen) (i * l.metaLen + l.metaLen) =
      leafBytes l bytes i := by
  have hle : (i + 1) * l.metaLen ≤ l.nSeg * l.metaLen := Nat.mul_le_mul_right _ hi
  rw [Nat.succ_mul] at hle
  rw [slice_slice bytes (by rw [hfacts.header]; omega), ← Nat.add_assoc]
  rfl

/-- A segment that opens is complete, its leaf is the stored one, and it decrypts. -/
structure SegmentOpens (plaintextLength : ℤ) (crypto : SealCrypto) (l : Layout) (state : SealState)
    (bytes : Bytes) (i : ℕ) (plaintext : Bytes) : Prop where
  complete : l.firstBlockOffset + i * SEGMENT_MAX +
    min SEGMENT_MAX (plaintextLength.toNat - i * SEGMENT_MAX) ≤ bytes.length
  leaf : segmentLeaf state (blockSlice plaintextLength l bytes i)
    (tagBytes l crypto.kdf.size bytes i) = .ok (leafBytes l bytes i)
  opens : openSegment state i (i == l.nSeg - 1) (blockSlice plaintextLength l bytes i)
    (tagBytes l crypto.kdf.size bytes i) none [] = .ok plaintext

theorem length_blockSlice {i : ℕ}
    (h : l.firstBlockOffset + i * SEGMENT_MAX +
      min SEGMENT_MAX (plaintextLength.toNat - i * SEGMENT_MAX) ≤ bytes.length) :
    (blockSlice plaintextLength l bytes i).length =
      min SEGMENT_MAX (plaintextLength.toNat - i * SEGMENT_MAX) := by
  unfold blockSlice
  rw [length_slice h, Nat.add_sub_cancel_left]

theorem openAt_eq_ok (hfacts : LayoutFacts (layoutParams plaintextLength crypto) l) {i : ℕ}
    (hi : i < l.nSeg) {plaintext : Bytes} :
    openAt plaintextLength crypto l state bytes i = .ok plaintext ↔
      SegmentOpens plaintextLength crypto l state bytes i plaintext := by
  unfold openAt
  constructor
  · intro h
    split_ifs at h with hcomplete
    obtain ⟨-, hleaf, hopens⟩ := (openBlock_eq_ok hfacts hi (metadata_leaf hfacts hi)).mp h
    exact ⟨hcomplete, hleaf, hopens⟩
  · intro h
    rw [if_pos h.complete]
    exact (openBlock_eq_ok hfacts hi (metadata_leaf hfacts hi)).mpr
      ⟨length_blockSlice h.complete, h.leaf, h.opens⟩

/-- In a whole object every segment is complete, and what opens it is what opens it
there. -/
theorem segmentOpens_iff (hfacts : LayoutFacts (layoutParams plaintextLength crypto) l)
    (hlen : bytes.length = l.totalSize) {i : ℕ} (hi : i < l.nSeg) {plaintext : Bytes} :
    SegmentOpens plaintextLength crypto l state bytes i plaintext ↔
      segmentLeaf state (blockOf l bytes i) (tagBytes l crypto.kdf.size bytes i) =
        .ok (leafBytes l bytes i) ∧
      openStored state l (layoutParams plaintextLength crypto) bytes i = .ok plaintext := by
  have hblock : blockSlice plaintextLength l bytes i = blockOf l bytes i := by
    have hbytes := blockBytes_eq_ok hfacts rfl hlen hi
    unfold blockBytes at hbytes
    rw [blockRange_eq_ok hfacts hi] at hbytes
    exact Except.ok.inj hbytes
  have hstored : openStored state l (layoutParams plaintextLength crypto) bytes i =
      openSegment state i (i == l.nSeg - 1) (blockOf l bytes i)
        (tagBytes l crypto.kdf.size bytes i) none [] := by
    unfold openStored
    rw [blockBytes_eq_ok hfacts rfl hlen hi]
    rfl
  constructor
  · intro h
    have hleaf := h.leaf
    have hopens := h.opens
    rw [hblock] at hleaf hopens
    exact ⟨hleaf, hstored.trans hopens⟩
  · rintro ⟨hleaf, hopens⟩
    refine ⟨?_, by rw [hblock, hleaf], by rw [hblock, ← hstored, hopens]⟩
    have hstart : i * SEGMENT_MAX < plaintextLength.toNat := (hfacts.seg i).mp hi
    have htotal : l.totalSize = l.firstBlockOffset + plaintextLength.toNat := hfacts.total
    omega

/-- A stream that has started ends with what the whole object opens to. -/
theorem emitAll_openAt_eq_ok (hfacts : LayoutFacts (layoutParams ref.plaintextLength crypto) l)
    {parts : List Bytes} (hstarted : Started cek ref crypto l bytes state) :
    emitAll (openAt ref.plaintextLength crypto l state bytes) (endsAt l bytes)
        (List.range l.nSeg) = ⟨parts, .ok ()⟩ ↔
      Verified state l crypto.kdf.size ref.snapshot bytes ∧
      (List.range l.nSeg).mapM
        (openStored state l (layoutParams ref.plaintextLength crypto) bytes) = .ok parts := by
  rw [emitAll_eq_ok, endsAt]
  constructor
  · rintro ⟨hparts, hend⟩
    have hlen : bytes.length = l.totalSize := by
      by_contra hne
      rw [if_neg hne] at hend
      cases hend
    have hopens : ∀ i ∈ List.range l.nSeg, ∀ plaintext,
        openAt ref.plaintextLength crypto l state bytes i = .ok plaintext → _ ∧ _ :=
      fun i hi plaintext hopen => (segmentOpens_iff hfacts hlen (List.mem_range.mp hi)).mp
        ((openAt_eq_ok hfacts (List.mem_range.mp hi)).mp hopen)
    refine ⟨⟨hlen, hstarted.gap, fun i hi => ?_, hstarted.heads, hstarted.header.root,
      hstarted.header.stored⟩, mapM_ok_mono hparts fun i hi plaintext hopen =>
        (hopens i hi plaintext hopen).2⟩
    have hmem := List.mem_range.mpr hi
    obtain ⟨plaintext, hopen⟩ := exists_ok_of_mapM hparts i hmem
    exact (hopens i hmem plaintext hopen).1
  · rintro ⟨hv, hparts⟩
    rw [if_pos hv.length]
    refine ⟨mapM_ok_mono hparts fun i hi plaintext hopen => ?_, rfl⟩
    have hi := List.mem_range.mp hi
    exact (openAt_eq_ok hfacts hi).mpr
      ((segmentOpens_iff hfacts hv.length hi).mpr ⟨hv.leaves i hi, hopen⟩)

theorem layout_error {p : LayoutParams} {err : MlsError} (h : layout p = .error err) :
    err = attachmentError := by
  simp only [layout] at h
  split_ifs at h
  · exact (Except.error.inj h).symm
  · cases h
  · exact (Except.error.inj h).symm

theorem decryptAttachmentStream_of_layout_error {chunks : List Bytes} {err : MlsError}
    (h : Readable cek ref crypto)
    (hl : layout (layoutParams ref.plaintextLength crypto) = .error err) :
    decryptAttachmentStream cek ref chunks crypto = .error attachmentError := by
  obtain ⟨-, -, hpos, -⟩ := validateAttachmentRef_ok h.valid
  have hsafe := h.safe
  obtain rfl := layout_error hl
  unfold decryptAttachmentStream
  rw [h.valid, ok_bind, assertCekLength_ok h.cek, ok_bind, if_neg (by omega), hl]
  rfl

/-- The stream ends with the plaintext exactly when the whole object opens to it. -/
theorem decryptAttachmentStream_eq_ok {chunks : List Bytes} {plaintext : Bytes}
    (h : Readable cek ref crypto) :
    (∃ parts, decryptAttachmentStream cek ref chunks crypto = .ok ⟨parts, .ok ()⟩ ∧
      concatAll parts = plaintext) ↔
      openObject cek ref.objectId chunks.flatten ref.object crypto = .ok plaintext := by
  obtain ⟨hlow, hhigh, -, -⟩ := validateAttachmentRef_ok h.valid
  rw [openObject_eq_ok]
  cases hl : layout (layoutParams ref.plaintextLength crypto) with
  | error err =>
    rw [decryptAttachmentStream_of_layout_error h hl]
    constructor
    · rintro ⟨parts, hparts, -⟩
      cases hparts
    · rintro ⟨-, -, -, l, state, parts, hl', -⟩
      cases hl.symm.trans hl'
  | ok l =>
    have hfacts := layout_eq_ok SEGMENT_MAX_pos hl
    constructor
    · rintro ⟨parts, hparts, rfl⟩
      rcases decryptAttachmentStream_cases chunks h hl with
        ⟨state, hstarted, heq⟩ | ⟨-, heq⟩
      · obtain ⟨hv, hmap⟩ := (emitAll_openAt_eq_ok hfacts hstarted).mp
          (Except.ok.inj (heq.symm.trans hparts))
        exact ⟨h.cek, hlow, hhigh, l, state, parts, hl, hstarted.header.opened, hv, hmap, rfl⟩
      · have hfailed := congrArg StreamOutcome.ended (Except.ok.inj (heq.symm.trans hparts))
        cases hfailed
    · rintro ⟨-, -, -, l', state, parts, hl', hopened, hv, hmap, rfl⟩
      obtain rfl := Except.ok.inj (hl.symm.trans hl')
      have hstarted : Started cek ref crypto l chunks.flatten state := by
        refine ⟨⟨hopened, hv.root, hv.stored⟩, hv.heads, ?_, hv.gap⟩
        rw [hv.length, hfacts.total]
        exact Nat.le_add_right ..
      rcases decryptAttachmentStream_cases chunks h hl with
        ⟨state', hstarted', heq⟩ | ⟨hnone, -⟩
      · obtain rfl := Except.ok.inj (hopened.symm.trans hstarted'.header.opened)
        refine ⟨parts, ?_, rfl⟩
        rw [heq, (emitAll_openAt_eq_ok hfacts hstarted').mpr ⟨hv, hmap⟩]
      · exact absurd hstarted (hnone state)

/-- The plaintexts of the first segments, each of which verifies against its leaf,
the head of its epoch and the root. -/
def InitialRun (cek : Bytes) (ref : AttachmentRef) (crypto : SealCrypto) (bytes : Bytes)
    (emitted : List Bytes) : Prop :=
  emitted = [] ∨ ∃ l state, layout (layoutParams ref.plaintextLength crypto) = .ok l ∧
    HeaderVerified cek ref.objectId ref.snapshot crypto l bytes state ∧
    ∀ i plaintext, emitted[i]? = some plaintext → i < l.nSeg ∧
      epochHead state (runOf l bytes (i / perEpoch)) =
        .ok (headBytes l crypto.kdf.size bytes (i / perEpoch)) ∧
      SegmentOpens ref.plaintextLength crypto l state bytes i plaintext

/-- A stream that does not end has emitted an initial run. -/
theorem decryptAttachmentStream_initialRun (chunks : List Bytes) (h : Readable cek ref crypto) :
    decryptAttachmentStream cek ref chunks crypto = .error attachmentError ∨
      ∃ emitted ended, decryptAttachmentStream cek ref chunks crypto = .ok ⟨emitted, ended⟩ ∧
        (ended = .ok () ∨ ended = .error attachmentError) ∧
        InitialRun cek ref crypto chunks.flatten emitted := by
  cases hl : layout (layoutParams ref.plaintextLength crypto) with
  | error err => exact .inl (decryptAttachmentStream_of_layout_error h hl)
  | ok l =>
    have hfacts := layout_eq_ok SEGMENT_MAX_pos hl
    refine .inr ?_
    rcases decryptAttachmentStream_cases chunks h hl with
      ⟨state, hstarted, heq⟩ | ⟨-, heq⟩
    · have hends : endsAt l chunks.flatten = .ok () ∨
          endsAt l chunks.flatten = .error attachmentError := by
        unfold endsAt
        split_ifs <;> simp
      refine ⟨_, _, heq, emitAll_ended hends _, .inr ⟨l, state, hl, hstarted.header, ?_⟩⟩
      intro i plaintext hemitted
      obtain ⟨j, hj, hopen⟩ := emitAll_emitted hemitted
      obtain ⟨hi, rfl⟩ : i < l.nSeg ∧ i = j := by
        rw [List.getElem?_eq_some_iff] at hj
        obtain ⟨hlt, hj⟩ := hj
        rw [List.length_range] at hlt
        exact ⟨hlt, by rw [← hj, List.getElem_range]⟩
      have hepoch : i / perEpoch < l.nEp :=
        (hfacts.ep _).mpr (lt_of_le_of_lt (Nat.div_mul_le_self i _) hi)
      exact ⟨hi, hstarted.heads _ hepoch, (openAt_eq_ok hfacts hi).mp hopen⟩
    · exact ⟨_, _, heq, .inr rfl, .inl rfl⟩

end WebcryptoMls
