import WebcryptoMls.AttachmentRange
import WebcryptoMls.LayoutRegions

/-!
# Range plans

What is fetched for a slice of the plaintext: no byte less than its segments need to
be checked and opened, and no byte more. The pieces are as large as they can be, so
that each lookup of a range read falls into one of them.
-/
namespace WebcryptoMls
open Slices Records

/-- The bytes of the plaintext in a segment. -/
def segmentPositions (p : LayoutParams) (i : ℕ) : Set ℕ :=
  Set.Ico (i * p.segmentMax) (min ((i + 1) * p.segmentMax) p.plaintextLength.toNat)

/-- What a range read needs of an object: what comes first, the leaves of all epochs
that it touches, the padding, and the blocks. -/
def neededPositions (p : LayoutParams) (l : Layout) (segFirst segLast : ℕ) : Set ℕ :=
  positionsOf (prefixRegions p l) ∪
    {k | ∃ i, segFirst ≤ i ∧ i ≤ segLast ∧
      k ∈ positionsOf ((segmentsOfEpoch p l (epochOf p i)).map (metaRange l))} ∪
    (gapRegion l).positions ∪
    {k | ∃ i r, segFirst ≤ i ∧ i ≤ segLast ∧ blockRange l p i = .ok r ∧ k ∈ r.positions}

/-- A lookup finds one of the ranges, around the whole stretch. -/
def Found (view : Record ℕ Bytes) (ranges : List ByteRange) (start stop : ℕ) : Prop :=
  ∃ r ∈ ranges, ∃ bytes, findAround view start stop = some (r.offset, bytes) ∧
    bytes.length = r.length ∧ r.offset ≤ start ∧ stop ≤ r.offset + r.length

/-- Every lookup of a range read finds a range. -/
structure LookupsFound (p : LayoutParams) (l : Layout) (plan : RangePlan) (view : Record ℕ Bytes) :
    Prop where
  gap : l.firstBlockOffset > l.headerSize →
    Found view plan.ranges l.headerSize l.firstBlockOffset
  runs : ∀ e ∈ upTo (epochOf p plan.segFirst) (epochOf p plan.segLast),
    Found view plan.ranges (l.metaOffset + e * perEpoch * (p.nh + 16))
      (l.metaOffset + e * perEpoch * (p.nh + 16) +
        min perEpoch (l.nSeg - e * perEpoch) * (p.nh + 16))
  blocks : ∀ i ∈ upTo plan.segFirst plan.segLast, ∃ blockLen,
    segmentLength l p i = .ok blockLen ∧
    Found view plan.ranges (l.firstBlockOffset + i * SEGMENT_MAX)
      (l.firstBlockOffset + i * SEGMENT_MAX + blockLen)

section
variable {p : LayoutParams} {l : Layout}

/-- The ranges of a plan before they are coalesced. -/
def separateRanges (p : LayoutParams) (l : Layout) (segFirst segLast : ℕ) : List ByteRange :=
  { offset := 0, length := l.epochHeadsOffset + l.nEp * p.nh } ::
    (upTo (epochOf p segFirst) (epochOf p segLast)).map (epochMetaRange l p) ++
    (if l.firstBlockOffset > l.headerSize then [gapRegion l] else []) ++
    (upTo segFirst segLast).map fun i => {
      offset := l.firstBlockOffset + i * p.segmentMax
      length := min p.segmentMax (p.plaintextLength.toNat - i * p.segmentMax) }

theorem rangesFor_ok (hf : LayoutFacts p l) (hl : layout p = .ok l) {offset length : ℤ}
    (hoffset : 0 ≤ offset) (hlength : 0 < length) (hstop : offset + length ≤ p.plaintextLength)
    (hlast : (offset + length - 1).toNat / p.segmentMax < l.nSeg) :
    rangesFor p offset length = .ok {
      segFirst := offset.toNat / p.segmentMax
      segLast := (offset + length - 1).toNat / p.segmentMax
      ranges := coalesce (separateRanges p l (offset.toNat / p.segmentMax)
        ((offset + length - 1).toNat / p.segmentMax)) } := by
  have hsafe := hf.safe
  have hblocks : (upTo (offset.toNat / p.segmentMax) ((offset + length - 1).toNat / p.segmentMax)).mapM
      (blockRange l p) = .ok ((upTo (offset.toNat / p.segmentMax)
        ((offset + length - 1).toNat / p.segmentMax)).map fun i => {
          offset := l.firstBlockOffset + i * p.segmentMax
          length := min p.segmentMax (p.plaintextLength.toNat - i * p.segmentMax) }) :=
    mapM_eq_ok fun i hi => blockRange_eq_ok hf ((mem_upTo.mp hi).2.trans_lt hlast)
  unfold rangesFor
  rw [if_neg (by omega), hl, ok_bind]
  simp only [hblocks, ok_bind]
  rfl

/-! ## What is asked for -/

theorem positions_epochMetaRange (e : ℕ) :
    (epochMetaRange l p e).positions =
      positionsOf ((segmentsOfEpoch p l e).map (metaRange l)) := by
  have hmono : Monotone fun j => j * l.metaLen := fun _ _ hle => Nat.mul_le_mul_right _ hle
  have hleaf : ∀ j < min (2 ^ p.epochLength) (l.nSeg - e * 2 ^ p.epochLength),
      metaRange l (e * 2 ^ p.epochLength + j) = {
        offset := l.metaOffset + e * 2 ^ p.epochLength * l.metaLen + j * l.metaLen
        length := (j + 1) * l.metaLen - j * l.metaLen } := by
    intro j _
    rw [metaRange, Nat.add_mul (e * 2 ^ p.epochLength), Nat.succ_mul, Nat.add_sub_cancel_left,
      Nat.add_assoc]
  have hcont := contiguous_map_range hmono _ hleaf
  rw [Nat.zero_mul, Nat.add_zero] at hcont
  simp only [segmentsOfEpoch, List.range'_eq_map_range, List.map_map, Function.comp_def]
  rw [hcont.positionsOf_eq]
  rfl

/-- Every epoch from that of one segment to that of another has a segment between them. -/
theorem exists_segment_of_epoch {first last e : ℕ} (hle : first ≤ last) (hfirst : epochOf p first ≤ e)
    (hlast : e ≤ epochOf p last) : ∃ i, first ≤ i ∧ i ≤ last ∧ epochOf p i = e := by
  have hpos := Nat.two_pow_pos p.epochLength
  unfold epochOf at *
  have hend := (Nat.le_div_iff_mul_le hpos).mp hlast
  rcases Nat.le_total (e * 2 ^ p.epochLength) first with hin | hbefore
  · exact ⟨first, le_rfl, hle, le_antisymm hfirst ((Nat.le_div_iff_mul_le hpos).mpr hin)⟩
  · exact ⟨e * 2 ^ p.epochLength, hbefore, hend, Nat.mul_div_cancel e hpos⟩

theorem positions_gapRegion : positionsOf
    (if l.firstBlockOffset > l.headerSize then [gapRegion l] else []) = (gapRegion l).positions := by
  split_ifs with hgap
  · simp
  · ext k
    simp only [positionsOf_nil, Set.mem_empty_iff_false, ByteRange.mem_positions, gapRegion,
      false_iff]
    omega

theorem positions_separateRanges (hf : LayoutFacts p l) (hc : LayoutCounts p l)
    {segFirst segLast : ℕ} (hle : segFirst ≤ segLast) (hlast : segLast < l.nSeg) :
    positionsOf (separateRanges p l segFirst segLast) = neededPositions p l segFirst segLast := by
  have hprefix : ({ offset := 0, length := l.epochHeadsOffset + l.nEp * p.nh } : ByteRange).positions =
      positionsOf (prefixRegions p l) := by
    rw [(contiguous_prefixRegions hf hc).positionsOf_eq, hf.metaOffset]
    ext k
    simp
  have hruns : positionsOf ((upTo (epochOf p segFirst) (epochOf p segLast)).map (epochMetaRange l p)) =
      {k | ∃ i, segFirst ≤ i ∧ i ≤ segLast ∧
        k ∈ positionsOf ((segmentsOfEpoch p l (epochOf p i)).map (metaRange l))} := by
    ext k
    constructor
    · rintro ⟨r, hr, hk⟩
      obtain ⟨e, he, rfl⟩ := List.mem_map.mp hr
      obtain ⟨i, hi, hi', rfl⟩ := exists_segment_of_epoch hle (mem_upTo.mp he).1 (mem_upTo.mp he).2
      exact ⟨i, hi, hi', positions_epochMetaRange (epochOf p i) ▸ hk⟩
    · rintro ⟨i, hi, hi', hk⟩
      rw [← positions_epochMetaRange] at hk
      have hmem : epochOf p i ∈ upTo (epochOf p segFirst) (epochOf p segLast) :=
        mem_upTo.mpr ⟨Nat.div_le_div_right hi, Nat.div_le_div_right hi'⟩
      exact ⟨_, List.mem_map_of_mem hmem, hk⟩
  have hblocks : positionsOf ((upTo segFirst segLast).map fun i => {
        offset := l.firstBlockOffset + i * p.segmentMax
        length := min p.segmentMax (p.plaintextLength.toNat - i * p.segmentMax) }) =
      {k | ∃ i r, segFirst ≤ i ∧ i ≤ segLast ∧ blockRange l p i = .ok r ∧ k ∈ r.positions} := by
    ext k
    constructor
    · rintro ⟨r, hr, hk⟩
      obtain ⟨i, hi, rfl⟩ := List.mem_map.mp hr
      have hi := mem_upTo.mp hi
      exact ⟨i, _, hi.1, hi.2, blockRange_eq_ok hf (hi.2.trans_lt hlast), hk⟩
    · rintro ⟨i, r, hi, hi', hr, hk⟩
      obtain rfl := Except.ok.inj ((blockRange_eq_ok hf (hi'.trans_lt hlast)).symm.trans hr)
      exact ⟨_, List.mem_map_of_mem (mem_upTo.mpr ⟨hi, hi'⟩), hk⟩
  rw [separateRanges, positionsOf_append, positionsOf_append, positionsOf_cons, hprefix, hruns,
    positions_gapRegion, hblocks]
  rfl

/-- Nothing is needed that is not there. -/
theorem neededPositions_subset (hf : LayoutFacts p l) (hc : LayoutCounts p l)
    {segFirst segLast : ℕ} (hlast : segLast < l.nSeg) :
    neededPositions p l segFirst segLast ⊆ Set.Iio l.totalSize := by
  have hall : ∀ r ∈ regions p l (blocksOf p l), ∀ k ∈ r.positions, k < l.totalSize := by
    intro r hr k hk
    exact hk.2.trans_le ((contiguous_regions hf hc).le_stop hr)
  rintro k (((⟨r, hr, hk⟩ | ⟨i, -, hi, r, hr, hk⟩) | hk) | ⟨i, r, -, hi, hr, hk⟩)
  · exact hall r (List.mem_append_left _ hr) k hk
  · obtain ⟨j, hj, rfl⟩ := List.mem_map.mp hr
    have hj := List.mem_range'_1.mp hj
    refine hall _ (List.mem_append_right _ (List.mem_append_left _ ?_)) k hk
    exact List.mem_map_of_mem (List.mem_range.mpr (by omega))
  · exact hall (gapRegion l) (by simp [regions]) k hk
  · obtain rfl := Except.ok.inj ((blockRange_eq_ok hf (hi.trans_lt hlast)).symm.trans hr)
    refine hall _ (List.mem_append_right _ (List.mem_append_right _ (List.mem_cons_of_mem _ ?_))) k hk
    exact List.mem_map_of_mem (List.mem_range.mpr (hi.trans_lt hlast))

theorem separateRanges_length_pos (hf : LayoutFacts p l) {segFirst segLast : ℕ}
    (hlast : segLast < l.nSeg) (hseg : 0 < p.segmentMax) :
    ∀ r ∈ separateRanges p l segFirst segLast, 0 < r.length := by
  intro r hr
  simp only [separateRanges, List.cons_append, List.mem_cons, List.mem_append, List.mem_map,
    mem_upTo] at hr
  rcases hr with rfl | (⟨e, he, rfl⟩ | hr) | ⟨i, hi, rfl⟩
  · have := hf.heads
    simp only
    omega
  · have hstart : e * 2 ^ p.epochLength < l.nSeg :=
      ((Nat.le_div_iff_mul_le (Nat.two_pow_pos _)).mp he.2).trans_lt hlast
    have hpos := Nat.two_pow_pos p.epochLength
    have hmeta : 0 < l.metaLen := by
      rw [hf.metaLen, META_TAG_LENGTH]
      omega
    exact Nat.mul_pos (by omega) hmeta
  · split_ifs at hr with hgap
    · obtain rfl := List.mem_singleton.mp hr
      simp only [gapRegion]
      omega
    · cases hr
  · have := (hf.seg i).mp (hi.2.trans_lt hlast)
    simp only
    omega

/-- The segments of a plan are those with a byte of the slice. -/
theorem segment_meets_iff (hf : LayoutFacts p l) (hseg : 0 < p.segmentMax) {offset length : ℕ}
    (hlength : 0 < length) (hstop : offset + length ≤ p.plaintextLength.toNat) (i : ℕ) :
    (offset / p.segmentMax ≤ i ∧ i ≤ (offset + length - 1) / p.segmentMax) ↔
      i < l.nSeg ∧ (segmentPositions p i ∩ Set.Ico offset (offset + length)).Nonempty := by
  have hnext : (i + 1) * p.segmentMax = i * p.segmentMax + p.segmentMax := Nat.succ_mul ..
  rw [Nat.le_div_iff_mul_le hseg, ← Nat.lt_add_one_iff, Nat.div_lt_iff_lt_mul hseg, hf.seg]
  constructor
  · rintro ⟨hfirst, hlast⟩
    refine ⟨by omega, max (i * p.segmentMax) offset, ?_⟩
    simp only [segmentPositions, Set.mem_inter_iff, Set.mem_Ico]
    omega
  · rintro ⟨-, k, hk⟩
    simp only [segmentPositions, Set.mem_inter_iff, Set.mem_Ico] at hk
    omega

/-! ## Looked up -/

/-- A view of fetched ranges has what was fetched, and nothing else. -/
theorem viewRange_foldlM {fetched : List (ByteRange × Bytes)} {view view' : Record ℕ Bytes}
    (h : fetched.foldlM viewRange view = .ok view') :
    (∀ f ∈ fetched, f.2.length = f.1.length) ∧
      view' = view.setAll (fetched.map fun f => (f.1.offset, f.2)) := by
  induction fetched generalizing view with
  | nil =>
    obtain rfl := Except.ok.inj h
    simp [Record.setAll]
  | cons f fetched ih =>
    rw [List.foldlM_cons] at h
    obtain ⟨next, hnext, h⟩ := bind_eq_ok.mp h
    unfold viewRange at hnext
    split_ifs at hnext with hlen
    obtain rfl := Except.ok.inj hnext
    obtain ⟨hrest, rfl⟩ := ih h
    exact ⟨List.forall_mem_cons.mpr ⟨not_not.mp hlen, hrest⟩, rfl⟩

theorem found_of_fetched {ranges : List ByteRange} {rangeBytes : List Bytes} {view : Record ℕ Bytes}
    (hlen : rangeBytes.length = ranges.length) (hnodup : (ranges.map ByteRange.offset).Nodup)
    (hview : (ranges.zip rangeBytes).foldlM viewRange Record.empty = .ok view) {start stop : ℕ}
    (h : Fetched ranges start stop) : Found view ranges start stop := by
  obtain ⟨hlengths, rfl⟩ := viewRange_foldlM hview
  have hkeys : ((ranges.zip rangeBytes).map fun f => (f.1.offset, f.2)).map Prod.fst =
      ranges.map ByteRange.offset := by
    rw [List.map_map, ← List.map_fst_zip hlen.ge, List.map_map, List.map_fst_zip hlen.ge]
    rfl
  have hentries : ∀ entry : ℕ × Bytes, entry ∈ (Record.empty.setAll
      ((ranges.zip rangeBytes).map fun f => (f.1.offset, f.2))).entries ↔
        ∃ f ∈ ranges.zip rangeBytes, (f.1.offset, f.2) = entry := by
    intro entry
    rw [← List.mem_map, ← Record.get_eq_some]
    exact Record.get_ofEntries_eq_some (hkeys ▸ hnodup)
  obtain ⟨r, hr, hstart, hstop⟩ := h
  rw [← List.map_fst_zip hlen.ge] at hr
  obtain ⟨f, hf, rfl⟩ := List.mem_map.mp hr
  have hfound : (findAround (Record.empty.setAll
      ((ranges.zip rangeBytes).map fun f => (f.1.offset, f.2))) start stop).isSome := by
    refine List.find?_isSome.mpr ⟨_, (hentries _).mpr ⟨f, hf, rfl⟩, ?_⟩
    have := hlengths f hf
    simp only [Bool.and_eq_true, decide_eq_true_eq]
    omega
  obtain ⟨entry, hentry⟩ := Option.isSome_iff_exists.mp hfound
  obtain ⟨g, hg, rfl⟩ := (hentries entry).mp (List.mem_of_find?_eq_some hentry)
  have haround := List.find?_some hentry
  have := hlengths g hg
  simp only [Bool.and_eq_true, decide_eq_true_eq] at haround
  exact ⟨g.1, (List.of_mem_zip hg).1, g.2, hentry, hlengths g hg, haround.1, by omega⟩

theorem mem_separateRanges_run {segFirst segLast e : ℕ}
    (he : e ∈ upTo (epochOf p segFirst) (epochOf p segLast)) :
    epochMetaRange l p e ∈ separateRanges p l segFirst segLast := by
  simp only [separateRanges, List.cons_append, List.mem_cons, List.mem_append, List.mem_map]
  exact .inr (.inl (.inl ⟨e, he, rfl⟩))

theorem mem_separateRanges_block {segFirst segLast i : ℕ} (hi : i ∈ upTo segFirst segLast) :
    ({ offset := l.firstBlockOffset + i * p.segmentMax
       length := min p.segmentMax (p.plaintextLength.toNat - i * p.segmentMax) } : ByteRange) ∈
      separateRanges p l segFirst segLast := by
  simp only [separateRanges, List.cons_append, List.mem_cons, List.mem_append, List.mem_map]
  exact .inr (.inr ⟨i, hi, rfl⟩)

/-- Whatever bytes are fetched for the ranges, every lookup finds one of them. -/
theorem lookups_found (hf : LayoutFacts p l) (hp : p.segmentMax = SEGMENT_MAX)
    (hep : p.epochLength = ATTACHMENT_EPOCH_LENGTH) {plan : RangePlan}
    (hranges : plan.ranges = coalesce (separateRanges p l plan.segFirst plan.segLast))
    (hlast : plan.segLast < l.nSeg) {rangeBytes : List Bytes} {view : Record ℕ Bytes}
    (hlen : rangeBytes.length = plan.ranges.length)
    (hview : (plan.ranges.zip rangeBytes).foldlM viewRange Record.empty = .ok view) :
    LookupsFound p l plan view := by
  have hnodup : (plan.ranges.map ByteRange.offset).Nodup := by
    rw [hranges, List.Nodup, List.pairwise_map]
    exact (coalesced_coalesce _).apart.imp fun hab => by omega
  have hfound : ∀ r ∈ separateRanges p l plan.segFirst plan.segLast, ∀ start stop,
      r.offset ≤ start → stop ≤ r.offset + r.length → Found view plan.ranges start stop := by
    intro r hr start stop hstart hstop
    refine found_of_fetched hlen hnodup hview ?_
    rw [hranges]
    exact fetched_coalesce hr hstart hstop
  refine ⟨fun hgap => ?_, fun e he => ?_, fun i hi => ?_⟩
  · refine hfound (gapRegion l) (by simp [separateRanges, hgap]) _ _ le_rfl ?_
    simp only [gapRegion]
    omega
  · refine hfound _ (mem_separateRanges_run he) _ _ ?_ ?_
    · simp only [epochMetaRange, hep, hf.metaLen]
      exact le_rfl
    · simp only [epochMetaRange, hep, hf.metaLen]
      exact le_rfl
  · refine ⟨_, segmentLength_eq_ok hf ((mem_upTo.mp hi).2.trans_lt hlast),
      hfound _ (mem_separateRanges_block hi) _ _ ?_ ?_⟩
    · simp only [hp]
      exact le_rfl
    · simp only [hp]
      exact le_rfl

/-! ## What the lookups give -/

theorem Found.sliceOfView {view : Record ℕ Bytes} {ranges : List ByteRange} {start stop : ℕ}
    (h : Found view ranges start stop) :
    ∃ bytes : Bytes, WebcryptoMls.sliceOfView view start stop = .ok bytes ∧
      bytes.length = stop - start := by
  obtain ⟨r, -, fetched, hfind, hlen, hstart, hstop⟩ := h
  refine ⟨slice fetched (start - r.offset) (stop - r.offset), ?_, ?_⟩
  · rw [WebcryptoMls.sliceOfView, hfind]
    rfl
  · rw [length_slice (by omega)]
    omega

variable {plan : RangePlan} {view : Record ℕ Bytes}

/-- The padding is never missed: it is refused only if it is not zero. -/
theorem LookupsFound.checkGap (h : LookupsFound p l plan view) :
    WebcryptoMls.checkGap l view = .ok () ↔ (l.firstBlockOffset > l.headerSize →
      WebcryptoMls.sliceOfView view l.headerSize l.firstBlockOffset =
        .ok (List.replicate (l.firstBlockOffset - l.headerSize) 0)) := by
  unfold WebcryptoMls.checkGap
  by_cases hgap : l.firstBlockOffset > l.headerSize
  · obtain ⟨r, -, fetched, hfind, hlen, hstart, hstop⟩ := h.gap hgap
    have hzero : isZeroRegion fetched (l.headerSize - r.offset) (l.firstBlockOffset - r.offset) =
        true ↔ slice fetched (l.headerSize - r.offset) (l.firstBlockOffset - r.offset) =
          List.replicate (l.firstBlockOffset - l.headerSize) 0 := by
      rw [isZeroRegion_iff]
      congr! 2
      omega
    rw [if_pos hgap, imp_iff_right hgap, WebcryptoMls.sliceOfView, hfind]
    refine Iff.trans ?_ (hzero.trans ⟨congrArg Except.ok, Except.ok.inj⟩)
    dsimp only
    cases isZeroRegion fetched (l.headerSize - r.offset) (l.firstBlockOffset - r.offset) with
    | true => exact iff_of_true rfl rfl
    | false => exact iff_of_false nofun nofun
  · rw [if_neg hgap]
    exact iff_of_true rfl fun h => absurd h hgap

/-- The run of an epoch has its whole length and goes to its place. -/
theorem LookupsFound.copyEpochRun (h : LookupsFound p l plan view) {e : ℕ}
    (he : e ∈ upTo (epochOf p plan.segFirst) (epochOf p plan.segLast)) (metadata : Bytes) :
    ∃ epochRun : Bytes,
      epochRun.length = min perEpoch (l.nSeg - e * perEpoch) * (p.nh + 16) ∧
      WebcryptoMls.copyEpochRun l p.nh view metadata e =
        setBytes metadata epochRun (e * perEpoch * (p.nh + 16)) := by
  obtain ⟨epochRun, hslice, hlen⟩ := (h.runs e he).sliceOfView
  refine ⟨epochRun, by rw [hlen, Nat.add_sub_cancel_left], ?_⟩
  rw [WebcryptoMls.copyEpochRun, hslice, ok_bind, Nat.add_sub_cancel_left]

/-- A block is opened at its whole length. -/
theorem LookupsFound.openFetchedBlock (h : LookupsFound p l plan view) {ctx : HeaderContext}
    (hl : ctx.header.l = l) (hp : ctx.header.layoutParams = p) {i : ℕ}
    (hi : i ∈ upTo plan.segFirst plan.segLast) :
    ∃ block : Bytes, segmentLength l p i = .ok block.length ∧
      WebcryptoMls.openFetchedBlock ctx view i = openBlock ctx i block := by
  obtain ⟨blockLen, hseg, hfound⟩ := h.blocks i hi
  obtain ⟨block, hslice, hlen⟩ := hfound.sliceOfView
  refine ⟨block, by rw [hseg, hlen, Nat.add_sub_cancel_left], ?_⟩
  rw [WebcryptoMls.openFetchedBlock, hl, hp, hseg, ok_bind]
  dsimp only
  rw [hslice, ok_bind]

end

/-- A plan has the segments that a slice meets and asks for what they need, in
pieces that are apart; and each lookup of a range read finds one of these. -/
theorem rangesFor_exact {p : LayoutParams} {l : Layout} (hp : p.Bounded) (hl : layout p = .ok l)
    {offset length : ℕ} (hlength : 0 < length) (hstop : (offset + length : ℕ) ≤ p.plaintextLength) :
    ∃ plan, rangesFor p offset length = .ok plan ∧
      (plan.ranges.Pairwise fun a b => a.offset + a.length < b.offset) ∧
      (∀ r ∈ plan.ranges, 0 < r.length ∧ r.offset + r.length ≤ l.totalSize) ∧
      (∀ i, (plan.segFirst ≤ i ∧ i ≤ plan.segLast) ↔
        i < l.nSeg ∧ (segmentPositions p i ∩ Set.Ico offset (offset + length)).Nonempty) ∧
      positionsOf plan.ranges = neededPositions p l plan.segFirst plan.segLast ∧
      (p.segmentMax = SEGMENT_MAX → p.epochLength = ATTACHMENT_EPOCH_LENGTH →
        ∀ rangeBytes view, rangeBytes.length = plan.ranges.length →
          (plan.ranges.zip rangeBytes).foldlM viewRange Record.empty = .ok view →
            LookupsFound p l plan view) := by
  obtain ⟨k, -, hseg⟩ := hp.segmentMax
  have hpos : 0 < p.segmentMax := hseg ▸ Nat.two_pow_pos k
  have hf := layout_eq_ok hpos hl
  have hc := layout_counts hl
  have hmeets := segment_meets_iff hf hpos hlength (by omega : offset + length ≤ _)
  have hle : offset / p.segmentMax ≤ (offset + length - 1) / p.segmentMax :=
    Nat.div_le_div_right (by omega)
  have hlast := ((hmeets _).mp ⟨hle, le_rfl⟩).1
  have hnat : ((offset : ℤ) + length - 1).toNat = offset + length - 1 := by omega
  have hplan := rangesFor_ok hf hl (by omega : (0 : ℤ) ≤ offset) (by omega : (0 : ℤ) < length)
    (by omega) (by rwa [hnat])
  rw [hnat, Int.toNat_natCast] at hplan
  have hpositions := positions_separateRanges hf hc hle hlast
  have hlengths : ∀ r ∈ separateRanges p l (offset / p.segmentMax)
      ((offset + length - 1) / p.segmentMax), 0 < r.length :=
    separateRanges_length_pos hf hlast hpos
  refine ⟨_, hplan, (coalesced_coalesce _).apart, fun r hr => ?_, hmeets, ?_, ?_⟩
  · have hrpos := (coalesced_coalesce _).length_pos hlengths hr
    have hmem : r.offset + r.length - 1 ∈ positionsOf (coalesce (separateRanges p l
        (offset / p.segmentMax) ((offset + length - 1) / p.segmentMax))) :=
      ⟨r, hr, by rw [ByteRange.mem_positions]; omega⟩
    rw [positionsOf_coalesce, hpositions] at hmem
    have := Set.mem_Iio.mp (neededPositions_subset hf hc hlast hmem)
    omega
  · rw [positionsOf_coalesce, hpositions]
  · intro hsegmentMax hep rangeBytes view hlen hview
    exact lookups_found hf hsegmentMax hep rfl hlast hlen hview

/-- The byte on each side of the border between two segments: both blocks are fetched, and
whatever is fetched for them is opened. -/
theorem rangesFor_exact_twoSegments :
    ∃ l plan, layout twoSegments = .ok l ∧
      rangesFor twoSegments (65535 : ℕ) (2 : ℕ) = .ok plan ∧
      plan.segFirst = 0 ∧ plan.segLast = 1 ∧
      (plan.ranges.Pairwise fun a b => a.offset + a.length < b.offset) ∧
      (∀ r ∈ plan.ranges, 0 < r.length ∧ r.offset + r.length ≤ l.totalSize) ∧
      (∀ i, (plan.segFirst ≤ i ∧ i ≤ plan.segLast) ↔
        i < l.nSeg ∧ (segmentPositions twoSegments i ∩ Set.Ico 65535 (65535 + 2)).Nonempty) ∧
      positionsOf plan.ranges = neededPositions twoSegments l plan.segFirst plan.segLast ∧
      ∀ rangeBytes view, rangeBytes.length = plan.ranges.length →
        (plan.ranges.zip rangeBytes).foldlM viewRange Record.empty = .ok view →
          LookupsFound twoSegments l plan view := by
  have hp : twoSegments.Bounded := ⟨⟨16, le_rfl, rfl⟩, by decide, by decide⟩
  obtain ⟨l, hl⟩ : ∃ l, layout twoSegments = .ok l := exists_ok_of_toBool (by decide)
  obtain ⟨plan, hplan, hapart, hinside, hmeets, hneeded, hlookups⟩ :=
    rangesFor_exact hp hl (by decide : 0 < 2) (by decide : ((65535 + 2 : ℕ) : ℤ) ≤ _)
  have hsegs : (rangesFor twoSegments (65535 : ℕ) (2 : ℕ)).map
      (fun plan => (plan.segFirst, plan.segLast)) = .ok (0, 1) := by decide +kernel
  rw [hplan] at hsegs
  obtain ⟨hfirst, hlast⟩ := Prod.mk.inj (Except.ok.inj hsegs)
  exact ⟨l, plan, hl, hplan, hfirst, hlast, hapart, hinside, hmeets, hneeded, hlookups rfl rfl⟩

end WebcryptoMls
