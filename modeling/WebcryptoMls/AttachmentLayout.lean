import Mathlib.Data.List.Sort
import WebcryptoMls.MlsError
import WebcryptoMls.Codec
import WebcryptoMls.Slices

/-!
# Attachment layout

Where everything in a sealed object is. The header holds the salt, the commitment,
the snapshot, one head for each epoch and one leaf for each segment; zeros fill it
up to a multiple of the segment size, and the blocks follow.
-/
namespace WebcryptoMls
open Slices

def META_TAG_LENGTH : ℕ := 16

def MAX_SEGMENTS : ℕ := 2 ^ 31

/-- `Number.MAX_SAFE_INTEGER` -/
def MAX_SAFE_INTEGER : ℤ := 2 ^ 53 - 1

structure LayoutParams where
  plaintextLength : ℤ
  segmentMax : ℕ
  epochLength : ℕ
  nh : ℕ
  deriving DecidableEq

structure Layout where
  nSeg : ℕ
  nEp : ℕ
  headerSize : ℕ
  firstBlockOffset : ℕ
  totalSize : ℕ
  saltOffset : ℕ
  commitmentOffset : ℕ
  snapshotOffset : ℕ
  epochHeadsOffset : ℕ
  metaOffset : ℕ
  metaLen : ℕ
  deriving DecidableEq

/-- `Math.ceil(a / b)` -/
def ceilDiv (a b : ℕ) : ℕ := (a + b - 1) / b

def layout (p : LayoutParams) : Except MlsError Layout :=
  if ¬(0 < p.plaintextLength ∧ p.plaintextLength ≤ MAX_SAFE_INTEGER) then throw attachmentError
  else
    let plaintextLength := p.plaintextLength.toNat
    let nSeg := ceilDiv plaintextLength p.segmentMax
    if nSeg > MAX_SEGMENTS then throw attachmentError
    else
      let perEpoch := 2 ^ p.epochLength
      let nEp := ceilDiv nSeg perEpoch
      let metaLen := p.nh + META_TAG_LENGTH
      let headerSize := 32 + 2 * p.nh + nEp * p.nh + nSeg * metaLen
      let firstBlockOffset := ceilDiv headerSize p.segmentMax * p.segmentMax
      let lastLen := plaintextLength - (nSeg - 1) * p.segmentMax
      let totalSize := firstBlockOffset + (nSeg - 1) * p.segmentMax + lastLen
      pure {
        nSeg := nSeg
        nEp := nEp
        headerSize := headerSize
        firstBlockOffset := firstBlockOffset
        totalSize := totalSize
        saltOffset := 0
        commitmentOffset := 32
        snapshotOffset := 32 + p.nh
        epochHeadsOffset := 32 + 2 * p.nh
        metaOffset := 32 + 2 * p.nh + nEp * p.nh
        metaLen := metaLen }

def segmentLength (l : Layout) (p : LayoutParams) (i : ℕ) : Except MlsError ℕ :=
  if i ≥ l.nSeg then throw attachmentError
  else if i < l.nSeg - 1 then pure p.segmentMax
  else pure (p.plaintextLength.toNat - i * p.segmentMax)

structure ByteRange where
  offset : ℕ
  length : ℕ
  deriving DecidableEq

def blockRange (l : Layout) (p : LayoutParams) (i : ℕ) : Except MlsError ByteRange := do
  let length ← segmentLength l p i
  pure { offset := l.firstBlockOffset + i * p.segmentMax, length := length }

def metaRange (l : Layout) (i : ℕ) : ByteRange where
  offset := l.metaOffset + i * l.metaLen
  length := l.metaLen

def epochOf (p : LayoutParams) (i : ℕ) : ℕ := i / 2 ^ p.epochLength

/-- A byte past the end is not zero. -/
def isZeroRegion (bytes : Bytes) (start stop : ℕ) : Bool :=
  (List.range (stop - start)).all fun i => bytes[start + i]? == some 0

/-- The round of `coalesce`: a range that starts where the last one ends, or
before, makes the last one longer. -/
def coalesceOnto (out : List ByteRange) (r : ByteRange) : List ByteRange :=
  match out.getLast? with
  | some last =>
    if r.offset ≤ last.offset + last.length then
      let stop := max (last.offset + last.length) (r.offset + r.length)
      out.dropLast ++ [{ last with length := stop - last.offset }]
    else out ++ [r]
  | none => out ++ [r]

def coalesce (ranges : List ByteRange) : List ByteRange :=
  (ranges.insertionSort fun a b => a.offset ≤ b.offset).foldl coalesceOnto []

structure RangePlan where
  segFirst : ℕ
  segLast : ℕ
  ranges : List ByteRange
  deriving DecidableEq

/-- `first, first + 1, …, last` -/
def upTo (first last : ℕ) : List ℕ := List.range' first (last + 1 - first)

/-- The metadata of one epoch's segments. -/
def epochMetaRange (l : Layout) (p : LayoutParams) (e : ℕ) : ByteRange :=
  let perEpoch := 2 ^ p.epochLength
  let first := e * perEpoch
  let count := min perEpoch (l.nSeg - first)
  { offset := l.metaOffset + first * l.metaLen, length := count * l.metaLen }

def rangesFor (p : LayoutParams) (offset length : ℤ) : Except MlsError RangePlan :=
  if offset > MAX_SAFE_INTEGER ∨ length > MAX_SAFE_INTEGER ∨ length ≤ 0 ∨ offset < 0 ∨
      offset + length > p.plaintextLength then throw attachmentError
  else do
    let l ← layout p
    let segFirst := offset.toNat / p.segmentMax
    let segLast := (offset + length - 1).toNat / p.segmentMax
    let epFirst := epochOf p segFirst
    let epLast := epochOf p segLast
    let fixed : ByteRange := { offset := 0, length := l.epochHeadsOffset + l.nEp * p.nh }
    let runs := (upTo epFirst epLast).map (epochMetaRange l p)
    let gap : List ByteRange :=
      if l.firstBlockOffset > l.headerSize then
        [{ offset := l.headerSize, length := l.firstBlockOffset - l.headerSize }]
      else []
    let blocks ← (upTo segFirst segLast).mapM (blockRange l p)
    pure {
      segFirst := segFirst
      segLast := segLast
      ranges := coalesce (fixed :: runs ++ gap ++ blocks) }

/-! ## Facts about a layout -/

theorem isZeroRegion_iff {bytes : Bytes} {start stop : ℕ} :
    isZeroRegion bytes start stop = true ↔
      slice bytes start stop = List.replicate (stop - start) 0 := by
  unfold isZeroRegion
  rw [List.all_eq_true]
  constructor
  · intro h
    apply List.ext_getElem?
    intro i
    rw [getElem?_slice, List.getElem?_replicate]
    by_cases hi : i < stop - start
    · have := h i (List.mem_range.mpr hi)
      rw [if_pos (by omega), if_pos hi]
      exact beq_iff_eq.mp this
    · rw [if_neg (by omega), if_neg hi]
  · intro h i hi
    have hlt := List.mem_range.mp hi
    have := congrArg (·[i]?) h
    simp only [getElem?_slice, List.getElem?_replicate] at this
    rw [if_pos (by omega), if_pos hlt] at this
    exact beq_iff_eq.mpr this

theorem le_ceilDiv_mul (a : ℕ) {b : ℕ} (hb : 0 < b) : a ≤ ceilDiv a b * b := by
  unfold ceilDiv
  have h := Nat.div_add_mod (a + b - 1) b
  have hlt := Nat.mod_lt (a + b - 1) hb
  rw [Nat.mul_comm] at h
  omega

theorem lt_ceilDiv_iff {a b i : ℕ} (hb : 0 < b) : i < ceilDiv a b ↔ i * b < a := by
  unfold ceilDiv
  rw [Nat.lt_iff_add_one_le, Nat.le_div_iff_mul_le hb, Nat.succ_mul]
  omega

/-- What is known of a layout: each region starts where the one before it ends, up
to the gap, and there are segments and epochs for the whole plaintext. -/
structure LayoutFacts (p : LayoutParams) (l : Layout) : Prop where
  pos : 0 < p.plaintextLength
  safe : p.plaintextLength ≤ MAX_SAFE_INTEGER
  nSeg_le : l.nSeg ≤ MAX_SEGMENTS
  seg : ∀ i, i < l.nSeg ↔ i * p.segmentMax < p.plaintextLength.toNat
  ep : ∀ e, e < l.nEp ↔ e * 2 ^ p.epochLength < l.nSeg
  heads : l.epochHeadsOffset = 32 + 2 * p.nh
  metaOffset : l.metaOffset = l.epochHeadsOffset + l.nEp * p.nh
  metaLen : l.metaLen = p.nh + META_TAG_LENGTH
  header : l.headerSize = l.metaOffset + l.nSeg * l.metaLen
  gap : l.headerSize ≤ l.firstBlockOffset
  total : l.totalSize = l.firstBlockOffset + p.plaintextLength.toNat

theorem layout_eq_ok {p : LayoutParams} {l : Layout} (hseg : 0 < p.segmentMax)
    (h : layout p = .ok l) : LayoutFacts p l := by
  unfold layout at h
  by_cases hpos : ¬(0 < p.plaintextLength ∧ p.plaintextLength ≤ MAX_SAFE_INTEGER)
  · rw [if_pos hpos] at h
    cases h
  rw [if_neg hpos] at h
  by_cases hmax : ceilDiv p.plaintextLength.toNat p.segmentMax > MAX_SEGMENTS
  · rw [if_pos hmax] at h
    cases h
  rw [if_neg hmax] at h
  obtain rfl := Except.ok.inj h
  obtain ⟨hlow, hhigh⟩ := not_not.mp hpos
  refine ⟨hlow, hhigh, not_lt.mp hmax, fun i => lt_ceilDiv_iff hseg,
    fun e => lt_ceilDiv_iff (by positivity), rfl, rfl, rfl, rfl, le_ceilDiv_mul _ hseg, ?_⟩
  -- The last segment starts inside the plaintext.
  have hfirst : 0 < ceilDiv p.plaintextLength.toNat p.segmentMax := by
    rw [lt_ceilDiv_iff hseg]
    omega
  have hlast := (lt_ceilDiv_iff (a := p.plaintextLength.toNat) hseg).mp (Nat.sub_one_lt hfirst.ne')
  simp only
  omega

theorem segmentLength_eq_ok {p : LayoutParams} {l : Layout} (h : LayoutFacts p l) {i : ℕ}
    (hi : i < l.nSeg) :
    segmentLength l p i = .ok (min p.segmentMax (p.plaintextLength.toNat - i * p.segmentMax)) := by
  unfold segmentLength
  rw [if_neg (by omega)]
  by_cases hlast : i < l.nSeg - 1
  · rw [if_pos hlast]
    have hnext := (h.seg (i + 1)).mp (by omega)
    rw [Nat.succ_mul] at hnext
    rw [min_eq_left (by omega)]
    rfl
  · rw [if_neg hlast]
    have hend := mt (h.seg (i + 1)).mpr (by omega)
    rw [Nat.succ_mul] at hend
    rw [min_eq_right (by omega)]
    rfl

theorem blockRange_eq_ok {p : LayoutParams} {l : Layout} (h : LayoutFacts p l) {i : ℕ}
    (hi : i < l.nSeg) :
    blockRange l p i = .ok {
      offset := l.firstBlockOffset + i * p.segmentMax
      length := min p.segmentMax (p.plaintextLength.toNat - i * p.segmentMax) } := by
  unfold blockRange
  rw [segmentLength_eq_ok h hi]
  rfl

/-! ## Coalescing -/

/-- Ranges apart from each other, in order, that cover what is seen and reach no
further. -/
structure Coalesced (seen out : List ByteRange) : Prop where
  apart : out.Pairwise fun a b => a.offset + a.length < b.offset
  covers : ∀ r ∈ seen, ∃ r' ∈ out,
    r'.offset ≤ r.offset ∧ r.offset + r.length ≤ r'.offset + r'.length
  starts : ∀ r' ∈ out, ∃ r ∈ seen, r'.offset = r.offset
  ends : ∀ r' ∈ out, ∃ r ∈ seen, r'.offset + r'.length = r.offset + r.length

/-- The last range may reach on to the end of one that starts in it or before. -/
theorem Coalesced.merge {seen init : List ByteRange} {last merged r : ByteRange}
    (h : Coalesced seen (init ++ [last])) (hr : ∀ x ∈ seen, x.offset ≤ r.offset)
    (hoffset : merged.offset = last.offset)
    (hend : merged.offset + merged.length = max (last.offset + last.length) (r.offset + r.length)) :
    Coalesced (seen ++ [r]) (init ++ [merged]) := by
  have hmem : last ∈ init ++ [last] := by simp
  obtain ⟨x, hx, hstart⟩ := h.starts last hmem
  obtain ⟨y, hy, hlast⟩ := h.ends last hmem
  have hle := hr x hx
  refine ⟨?_, ?_, ?_, ?_⟩
  · have hapart := h.apart
    simpa [List.pairwise_append, hoffset] using hapart
  · intro z hz
    rcases List.mem_append.mp hz with hz | hz
    · obtain ⟨r', hr', hcover⟩ := h.covers z hz
      rcases List.mem_append.mp hr' with hr' | hr'
      · exact ⟨r', List.mem_append_left _ hr', hcover⟩
      · obtain rfl := List.mem_singleton.mp hr'
        exact ⟨merged, by simp, by omega⟩
    · obtain rfl := List.mem_singleton.mp hz
      exact ⟨merged, by simp, by omega⟩
  · intro r' hr'
    rcases List.mem_append.mp hr' with hr' | hr'
    · obtain ⟨z, hz, hstart⟩ := h.starts r' (List.mem_append_left _ hr')
      exact ⟨z, List.mem_append_left _ hz, hstart⟩
    · obtain rfl := List.mem_singleton.mp hr'
      exact ⟨x, List.mem_append_left _ hx, hoffset.trans hstart⟩
  · intro r' hr'
    rcases List.mem_append.mp hr' with hr' | hr'
    · obtain ⟨z, hz, hend⟩ := h.ends r' (List.mem_append_left _ hr')
      exact ⟨z, List.mem_append_left _ hz, hend⟩
    · obtain rfl := List.mem_singleton.mp hr'
      by_cases hlong : r.offset + r.length ≤ last.offset + last.length
      · exact ⟨y, List.mem_append_left _ hy, by omega⟩
      · exact ⟨r, by simp, by omega⟩

/-- A range behind all others goes behind them. -/
theorem Coalesced.append {seen out : List ByteRange} {r : ByteRange} (h : Coalesced seen out)
    (hr : ∀ x ∈ out, x.offset + x.length < r.offset) : Coalesced (seen ++ [r]) (out ++ [r]) := by
  refine ⟨?_, ?_, ?_, ?_⟩
  · rw [List.pairwise_append]
    exact ⟨h.apart, List.pairwise_singleton .., by simpa using hr⟩
  · intro x hx
    rcases List.mem_append.mp hx with hx | hx
    · obtain ⟨r', hr', hcover⟩ := h.covers x hx
      exact ⟨r', List.mem_append_left _ hr', hcover⟩
    · exact ⟨x, List.mem_append_right _ hx, le_rfl, le_rfl⟩
  · intro r' hr'
    rcases List.mem_append.mp hr' with hr' | hr'
    · obtain ⟨x, hx, hstart⟩ := h.starts r' hr'
      exact ⟨x, List.mem_append_left _ hx, hstart⟩
    · exact ⟨r', List.mem_append_right _ hr', rfl⟩
  · intro r' hr'
    rcases List.mem_append.mp hr' with hr' | hr'
    · obtain ⟨x, hx, hend⟩ := h.ends r' hr'
      exact ⟨x, List.mem_append_left _ hx, hend⟩
    · exact ⟨r', List.mem_append_right _ hr', rfl⟩

theorem Coalesced.onto {seen out : List ByteRange} (h : Coalesced seen out) {r : ByteRange}
    (hr : ∀ x ∈ seen, x.offset ≤ r.offset) : Coalesced (seen ++ [r]) (coalesceOnto out r) := by
  rcases List.eq_nil_or_concat out with rfl | ⟨init, last, rfl⟩
  · exact h.append (by simp)
  · rw [List.concat_eq_append] at h ⊢
    unfold coalesceOnto
    simp only [List.getLast?_concat, List.dropLast_concat]
    split_ifs with htouch
    · exact h.merge hr rfl (by simp only; omega)
    · apply h.append
      intro x hx
      rcases List.mem_append.mp hx with hx | hx
      · have hapart := (List.pairwise_append.mp h.apart).2.2 x hx last (by simp)
        omega
      · obtain rfl := List.mem_singleton.mp hx
        omega

theorem coalesced_foldl (sorted : List ByteRange)
    (h : sorted.Pairwise fun a b => a.offset ≤ b.offset) :
    Coalesced sorted (sorted.foldl coalesceOnto []) := by
  induction sorted using List.reverseRecOn with
  | nil => exact ⟨List.Pairwise.nil, by simp, by simp, by simp⟩
  | append_singleton seen r ih =>
    obtain ⟨hseen, -, hr⟩ := List.pairwise_append.mp h
    rw [List.foldl_append]
    exact (ih hseen).onto fun x hx => hr x hx r (by simp)

theorem coalesced_coalesce (ranges : List ByteRange) : Coalesced ranges (coalesce ranges) := by
  have hsorted := List.pairwise_insertionSort (fun a b : ByteRange => a.offset ≤ b.offset) ranges
  have h := coalesced_foldl _ hsorted
  refine ⟨h.apart, ?_, ?_, ?_⟩
  · intro r hr
    exact h.covers r ((List.mem_insertionSort _).mpr hr)
  · intro r' hr'
    obtain ⟨r, hr, hstart⟩ := h.starts r' hr'
    exact ⟨r, (List.mem_insertionSort _).mp hr, hstart⟩
  · intro r' hr'
    obtain ⟨r, hr, hend⟩ := h.ends r' hr'
    exact ⟨r, (List.mem_insertionSort _).mp hr, hend⟩

end WebcryptoMls
