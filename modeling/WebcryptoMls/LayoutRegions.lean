import WebcryptoMls.LayoutNumbers
import WebcryptoMls.ByteRanges
import WebcryptoMls.SealedObjects

/-!
# The regions of a layout

The regions of a sealed object in the order in which they stand: they leave no byte
out and none is in two of them. Its epochs have all segments between them, and no
segment twice.
-/
namespace WebcryptoMls

/-- The salt, the commitment, the snapshot and the heads of the epochs. -/
def prefixRegions (p : LayoutParams) (l : Layout) : List ByteRange := [
  { offset := l.saltOffset, length := SALT_LENGTH },
  { offset := l.commitmentOffset, length := p.nh },
  { offset := l.snapshotOffset, length := p.nh },
  { offset := l.epochHeadsOffset, length := l.nEp * p.nh }]

def gapRegion (l : Layout) : ByteRange where
  offset := l.headerSize
  length := l.firstBlockOffset - l.headerSize

/-- Everything in an object: what comes first, the leaves, the padding and the blocks. -/
def regions (p : LayoutParams) (l : Layout) (blocks : List ByteRange) : List ByteRange :=
  prefixRegions p l ++ ((List.range l.nSeg).map (metaRange l) ++ (gapRegion l :: blocks))

/-- The segments of an epoch, as `sealObject` goes through them. -/
def segmentsOfEpoch (p : LayoutParams) (l : Layout) (e : ℕ) : List ℕ :=
  let perEpoch := 2 ^ p.epochLength
  let first := e * perEpoch
  let count := min perEpoch (l.nSeg - first)
  List.range' first count

/-- What an exact layout is. -/
structure ExactLayout (p : LayoutParams) (l : Layout) (blocks : List ByteRange) : Prop where
  safe : ∀ k ∈ [l.nSeg, l.nEp, l.headerSize, l.firstBlockOffset, l.totalSize, l.saltOffset,
    l.commitmentOffset, l.snapshotOffset, l.epochHeadsOffset, l.metaOffset, l.metaLen],
      (k : ℤ) ≤ MAX_SAFE_INTEGER
  blockNumbers : ∀ i < l.nSeg,
    blockRangeNumbers l.numbers p i = (blockRange l p i).map ByteRange.numbers
  metaNumbers : ∀ i < l.nSeg, metaRangeNumbers l.numbers i = (metaRange l i).numbers
  epochNumbers : ∀ i < l.nSeg, epochOfNumber p i = epochOf p i
  contiguous : Contiguous 0 (regions p l blocks) l.totalSize
  disjoint : (regions p l blocks).Pairwise fun r s => Disjoint r.positions s.positions
  covers : positionsOf (regions p l blocks) = Set.Iio l.totalSize
  gap : l.firstBlockOffset - l.headerSize < p.segmentMax
  segments : ∀ r ∈ blocks, 0 < r.length ∧ r.length ≤ p.segmentMax
  plaintext : ((blocks.map ByteRange.length).sum : ℤ) = p.plaintextLength
  epoch : ∀ i < l.nSeg, ∀ e, i ∈ segmentsOfEpoch p l e ↔ e = epochOf p i
  epochOf_lt : ∀ i < l.nSeg, epochOf p i < l.nEp
  epochs : ∀ e < l.nEp, 1 ≤ (segmentsOfEpoch p l e).length ∧
    (segmentsOfEpoch p l e).length ≤ 2 ^ p.epochLength ∧ ∀ i ∈ segmentsOfEpoch p l e, i < l.nSeg

section
variable {p : LayoutParams} {l : Layout}

/-- The blocks, each of them what is left of the plaintext at most. -/
def blocksOf (p : LayoutParams) (l : Layout) : List ByteRange :=
  (List.range l.nSeg).map fun i => {
    offset := l.firstBlockOffset + i * p.segmentMax
    length := min p.segmentMax (p.plaintextLength.toNat - i * p.segmentMax) }

theorem mapM_blockRange (h : LayoutFacts p l) :
    (List.range l.nSeg).mapM (blockRange l p) = .ok (blocksOf p l) :=
  mapM_eq_ok fun _ hi => blockRange_eq_ok h (List.mem_range.mp hi)

theorem contiguous_prefixRegions (h : LayoutFacts p l) (hc : LayoutCounts p l) :
    Contiguous 0 (prefixRegions p l) l.metaOffset := by
  have hheads := h.heads
  have hmeta := h.metaOffset
  simp only [prefixRegions, Contiguous, hc.saltOffset, hc.commitmentOffset, hc.snapshotOffset,
    SALT_LENGTH, true_and]
  omega

theorem contiguous_leaves (h : LayoutFacts p l) :
    Contiguous l.metaOffset ((List.range l.nSeg).map (metaRange l)) l.headerSize := by
  have hmono : Monotone fun i => i * l.metaLen := fun _ _ hle => Nat.mul_le_mul_right _ hle
  have hleaf : ∀ i < l.nSeg, metaRange l i = {
      offset := l.metaOffset + i * l.metaLen
      length := (i + 1) * l.metaLen - i * l.metaLen } := by
    intro i _
    rw [Nat.succ_mul, Nat.add_sub_cancel_left]
    rfl
  have hcont := contiguous_map_range hmono l.nSeg hleaf
  rwa [Nat.zero_mul, Nat.add_zero, ← h.header] at hcont

theorem contiguous_blocksOf (h : LayoutFacts p l) :
    Contiguous l.firstBlockOffset (blocksOf p l) l.totalSize := by
  have hmono : Monotone fun i => min (i * p.segmentMax) p.plaintextLength.toNat :=
    fun _ _ hle => min_le_min_right _ (Nat.mul_le_mul_right _ hle)
  have hend := not_lt.mp (mt (h.seg l.nSeg).mpr (lt_irrefl _))
  have hblock : ∀ i < l.nSeg, ({
      offset := l.firstBlockOffset + i * p.segmentMax
      length := min p.segmentMax (p.plaintextLength.toNat - i * p.segmentMax) } : ByteRange) = {
      offset := l.firstBlockOffset + min (i * p.segmentMax) p.plaintextLength.toNat
      length := min ((i + 1) * p.segmentMax) p.plaintextLength.toNat -
        min (i * p.segmentMax) p.plaintextLength.toNat } := by
    intro i hi
    have hstart := (h.seg i).mp hi
    rw [Nat.succ_mul]
    congr 1
    · omega
    · omega
  have hcont := contiguous_map_range hmono l.nSeg hblock
  simp only [Nat.zero_mul, Nat.zero_min, Nat.add_zero] at hcont
  rw [min_eq_right hend, ← h.total] at hcont
  exact hcont

/-- Between the header and the blocks stands less than a segment. -/
theorem contiguous_regions (h : LayoutFacts p l) (hc : LayoutCounts p l) :
    Contiguous 0 (regions p l (blocksOf p l)) l.totalSize := by
  have hgap := h.gap
  refine contiguous_append.mpr ⟨_, contiguous_prefixRegions h hc,
    contiguous_append.mpr ⟨_, contiguous_leaves h, rfl, ?_⟩⟩
  simp only [gapRegion]
  rw [Nat.add_sub_cancel' hgap]
  exact contiguous_blocksOf h

theorem mem_segmentsOfEpoch {e i : ℕ} (hi : i < l.nSeg) :
    i ∈ segmentsOfEpoch p l e ↔ e = epochOf p i := by
  have hpos := Nat.two_pow_pos p.epochLength
  have hdiv : i / 2 ^ p.epochLength = e ↔ _ := Nat.div_eq_iff hpos
  unfold segmentsOfEpoch epochOf
  rw [List.mem_range'_1, eq_comm, hdiv]
  omega

theorem epochOf_lt (h : LayoutFacts p l) {i : ℕ} (hi : i < l.nSeg) : epochOf p i < l.nEp := by
  rw [h.ep]
  exact (Nat.div_mul_le_self i _).trans_lt hi

theorem length_segmentsOfEpoch (h : LayoutFacts p l) {e : ℕ} (he : e < l.nEp) :
    1 ≤ (segmentsOfEpoch p l e).length ∧ (segmentsOfEpoch p l e).length ≤ 2 ^ p.epochLength := by
  have hstart := (h.ep e).mp he
  have hpos := Nat.two_pow_pos p.epochLength
  simp only [segmentsOfEpoch, List.length_range']
  omega

end

/-- A layout is computed exactly, its regions stand one behind the other, and its
segments are divided among its epochs. -/
theorem layout_exact {p : LayoutParams} {n : LayoutNumbers} (hseg : p.segmentMax = SEGMENT_MAX)
    (hep : p.epochLength ≤ 31) (hnh : p.nh ≤ 64) (h : layoutNumbers p = .ok n) :
    ∃ l blocks, layout p = .ok l ∧ n = l.numbers ∧
      (List.range l.nSeg).mapM (blockRange l p) = .ok blocks ∧ ExactLayout p l blocks := by
  have hp : p.Bounded := ⟨⟨16, le_rfl, hseg⟩, hep, hnh⟩
  rw [layoutNumbers_eq hp] at h
  obtain ⟨l, hl, rfl⟩ := map_eq_ok.mp h
  have hpos : 0 < p.segmentMax := hseg ▸ SEGMENT_MAX_pos
  have hf := layout_eq_ok hpos hl
  have hc := layout_counts hl
  have hb := layout_bounds hp hl
  have hcont := contiguous_regions hf hc
  refine ⟨l, blocksOf p l, hl, rfl, mapM_blockRange hf, ?_, fun i hi => blockRangeNumbers_eq hp hl hi,
    fun i hi => metaRangeNumbers_eq hp hl hi, ?_, hcont, hcont.disjoint, ?_, ?_, ?_, ?_,
    fun i hi e => mem_segmentsOfEpoch hi, fun i hi => epochOf_lt hf hi, ?_⟩
  · have h1 := hb.plaintextLength
    have h2 := hb.nSeg
    have h3 := hb.nEp
    have h4 := hb.heads
    have h5 := hb.leaves
    have h6 := hb.firstBlock
    have h7 := hf.heads
    have h8 := hf.metaOffset
    have h9 := hf.metaLen
    have h10 := hf.header
    have h11 := hf.total
    have h12 := hc.saltOffset
    have h13 := hc.commitmentOffset
    have h14 := hc.snapshotOffset
    rw [hseg, SEGMENT_MAX] at h6
    rw [META_TAG_LENGTH] at h9
    simp only [List.forall_mem_cons, List.not_mem_nil, false_imp_iff, implies_true, and_true,
      MAX_SAFE_INTEGER]
    omega
  · intro i hi
    have := hb.nSeg
    exact epochOfNumber_eq hp (by omega)
  · rw [hcont.positionsOf_eq]
    ext k
    simp
  · have := hb.firstBlock
    have := hf.gap
    omega
  · intro r hr
    obtain ⟨i, hi, rfl⟩ := List.mem_map.mp hr
    have := (hf.seg i).mp (List.mem_range.mp hi)
    simp only
    omega
  · have hsum := (contiguous_blocksOf hf).add_sum
    have := hf.total
    have := hf.pos
    omega
  · intro e he
    refine ⟨(length_segmentsOfEpoch hf he).1, (length_segmentsOfEpoch hf he).2, fun i hi => ?_⟩
    have hmem := List.mem_range'_1.mp hi
    omega

/-- One byte more than a segment. -/
def twoSegments : LayoutParams :=
  { plaintextLength := 65537, segmentMax := SEGMENT_MAX, epochLength := 10, nh := 32 }

theorem layout_exact_twoSegments :
    ∃ l blocks, layout twoSegments = .ok l ∧ layoutNumbers twoSegments = .ok l.numbers ∧
      (List.range l.nSeg).mapM (blockRange l twoSegments) = .ok blocks ∧
      ExactLayout twoSegments l blocks := by
  have hp : twoSegments.Bounded := ⟨⟨16, le_rfl, rfl⟩, by decide, by decide⟩
  obtain ⟨l, hl⟩ : ∃ l, layout twoSegments = .ok l := exists_ok_of_toBool (by decide)
  obtain ⟨l', blocks, hl', -, hblocks, hexact⟩ :=
    layout_exact (p := twoSegments) rfl (by decide) (by decide) (layoutNumbers_eq_ok hp hl)
  exact ⟨l', blocks, hl', layoutNumbers_eq_ok hp hl', hblocks, hexact⟩

end WebcryptoMls
