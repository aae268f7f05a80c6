import WebcryptoMls.AttachmentLayout
import WebcryptoMls.Binary64

/-!
# Layout numbers

A layout as it is computed, in the numbers of the language, where every operation
rounds. With a power of two for a segment size no operation has anything to round,
and the numbers are those of the layout in whole numbers.
-/
namespace WebcryptoMls
open Binary64

/-- `Math.ceil`, whose result no rounding changes -/
def ceilNumber (q : ℚ) : ℚ := ⌈q⌉

/-- `Math.floor` -/
def floorNumber (q : ℚ) : ℚ := ⌊q⌋

structure LayoutNumbers where
  nSeg : ℚ
  nEp : ℚ
  headerSize : ℚ
  firstBlockOffset : ℚ
  totalSize : ℚ
  saltOffset : ℚ
  commitmentOffset : ℚ
  snapshotOffset : ℚ
  epochHeadsOffset : ℚ
  metaOffset : ℚ
  metaLen : ℚ
  deriving DecidableEq

def layoutNumbers (p : LayoutParams) : Except MlsError LayoutNumbers :=
  if ¬(0 < p.plaintextLength ∧ p.plaintextLength ≤ MAX_SAFE_INTEGER) then throw attachmentError
  else
    let nSeg := ceilNumber (div p.plaintextLength p.segmentMax)
    if nSeg > MAX_SEGMENTS then throw attachmentError
    else
      let perEpoch := pow 2 p.epochLength
      let nEp := ceilNumber (div nSeg perEpoch)
      let metaLen := add p.nh META_TAG_LENGTH
      let headerSize := add (add (add 32 (mul 2 p.nh)) (mul nEp p.nh)) (mul nSeg metaLen)
      let firstBlockOffset := mul (ceilNumber (div headerSize p.segmentMax)) p.segmentMax
      let lastLen := sub p.plaintextLength (mul (sub nSeg 1) p.segmentMax)
      let totalSize := add (add firstBlockOffset (mul (sub nSeg 1) p.segmentMax)) lastLen
      pure {
        nSeg := nSeg
        nEp := nEp
        headerSize := headerSize
        firstBlockOffset := firstBlockOffset
        totalSize := totalSize
        saltOffset := 0
        commitmentOffset := 32
        snapshotOffset := add 32 p.nh
        epochHeadsOffset := add 32 (mul 2 p.nh)
        metaOffset := add (add 32 (mul 2 p.nh)) (mul nEp p.nh)
        metaLen := metaLen }

def segmentLengthNumber (l : LayoutNumbers) (p : LayoutParams) (i : ℚ) : Except MlsError ℚ :=
  if i < 0 ∨ i ≥ l.nSeg then throw attachmentError
  else if i < sub l.nSeg 1 then pure p.segmentMax
  else pure (sub p.plaintextLength (mul i p.segmentMax))

structure NumberRange where
  offset : ℚ
  length : ℚ
  deriving DecidableEq

def blockRangeNumbers (l : LayoutNumbers) (p : LayoutParams) (i : ℚ) : Except MlsError NumberRange := do
  let length ← segmentLengthNumber l p i
  pure { offset := add l.firstBlockOffset (mul i p.segmentMax), length := length }

def metaRangeNumbers (l : LayoutNumbers) (i : ℚ) : NumberRange where
  offset := add l.metaOffset (mul i l.metaLen)
  length := l.metaLen

def epochOfNumber (p : LayoutParams) (i : ℚ) : ℚ := floorNumber (div i (pow 2 p.epochLength))

/-! ## Whole numbers as numbers -/

def Layout.numbers (l : Layout) : LayoutNumbers where
  nSeg := l.nSeg
  nEp := l.nEp
  headerSize := l.headerSize
  firstBlockOffset := l.firstBlockOffset
  totalSize := l.totalSize
  saltOffset := l.saltOffset
  commitmentOffset := l.commitmentOffset
  snapshotOffset := l.snapshotOffset
  epochHeadsOffset := l.epochHeadsOffset
  metaOffset := l.metaOffset
  metaLen := l.metaLen

def ByteRange.numbers (r : ByteRange) : NumberRange where
  offset := r.offset
  length := r.length

/-- The parameters a layout is asked for with. -/
structure LayoutParams.Bounded (p : LayoutParams) : Prop where
  segmentMax : ∃ k ≤ 16, p.segmentMax = 2 ^ k
  epochLength : p.epochLength ≤ 31
  nh : p.nh ≤ 64

theorem ceilNumber_div (a : ℕ) {b : ℕ} (hb : 0 < b) :
    ceilNumber ((a : ℚ) / b) = (ceilDiv a b : ℕ) := by
  have hb' : (0 : ℚ) < b := by exact_mod_cast hb
  have hceil : ⌈(a : ℚ) / b⌉ = (ceilDiv a b : ℕ) := by
    rw [Int.ceil_eq_iff, lt_div_iff₀ hb', div_le_iff₀ hb']
    refine ⟨?_, by exact_mod_cast le_ceilDiv_mul a hb⟩
    rcases Nat.eq_zero_or_pos (ceilDiv a b) with hzero | hpos
    · rw [hzero]
      have ha : (0 : ℚ) ≤ a := Nat.cast_nonneg a
      push_cast
      linarith
    · have hlt := (lt_ceilDiv_iff (a := a) hb).mp (Nat.sub_one_lt hpos.ne')
      have hcast : ((ceilDiv a b - 1 : ℕ) : ℚ) = (ceilDiv a b : ℚ) - 1 := by
        rw [Nat.cast_sub hpos, Nat.cast_one]
      push_cast
      rw [← hcast]
      exact_mod_cast hlt
  rw [ceilNumber, hceil, Int.cast_natCast]

theorem floorNumber_div (a b : ℕ) : floorNumber ((a : ℚ) / b) = (a / b : ℕ) := by
  rw [floorNumber, Rat.floor_natCast_div_natCast, ← Int.natCast_div, Int.cast_natCast]

theorem ceilDiv_mul_lt (a : ℕ) {b : ℕ} (hb : 0 < b) : ceilDiv a b * b < a + b := by
  rcases Nat.eq_zero_or_pos (ceilDiv a b) with hzero | hpos
  · rw [hzero, Nat.zero_mul]
    omega
  · have hlt := (lt_ceilDiv_iff (a := a) hb).mp (Nat.sub_one_lt hpos.ne')
    have hsucc := Nat.succ_mul (ceilDiv a b - 1) b
    rw [Nat.succ_eq_add_one, Nat.sub_add_cancel hpos] at hsucc
    omega

/-! ## Nothing is rounded -/

/-- How many segments and epochs a layout has, and what it has at fixed places. -/
structure LayoutCounts (p : LayoutParams) (l : Layout) : Prop where
  nSeg : l.nSeg = ceilDiv p.plaintextLength.toNat p.segmentMax
  nEp : l.nEp = ceilDiv l.nSeg (2 ^ p.epochLength)
  firstBlockOffset : l.firstBlockOffset = ceilDiv l.headerSize p.segmentMax * p.segmentMax
  saltOffset : l.saltOffset = 0
  commitmentOffset : l.commitmentOffset = 32
  snapshotOffset : l.snapshotOffset = 32 + p.nh

theorem layout_counts {p : LayoutParams} {l : Layout} (h : layout p = .ok l) : LayoutCounts p l := by
  unfold layout at h
  split_ifs at h with hsafe
  dsimp only at h
  split_ifs at h with hmax
  obtain rfl := Except.ok.inj h
  exact ⟨rfl, rfl, rfl, rfl, rfl, rfl⟩

/-- How far the regions of a layout reach. -/
structure LayoutBounds (p : LayoutParams) (l : Layout) : Prop where
  plaintextLength : p.plaintextLength.toNat ≤ 2 ^ 47
  nSeg : l.nSeg ≤ 2 ^ 31
  nEp : l.nEp ≤ 2 ^ 31
  heads : l.nEp * p.nh ≤ 2 ^ 37
  leaves : l.nSeg * l.metaLen ≤ 2 ^ 38
  firstBlock : l.firstBlockOffset < l.headerSize + p.segmentMax
  blocks : ∀ i, i ≤ l.nSeg → i * p.segmentMax ≤ 2 ^ 47

theorem layout_bounds {p : LayoutParams} {l : Layout} (hp : p.Bounded) (h : layout p = .ok l) :
    LayoutBounds p l := by
  obtain ⟨k, hk, hseg⟩ := hp.segmentMax
  have hpos : 0 < p.segmentMax := hseg ▸ Nat.two_pow_pos k
  have hmax : p.segmentMax ≤ 2 ^ 16 := hseg ▸ Nat.pow_le_pow_right two_pos hk
  have hfacts := layout_eq_ok hpos h
  have hnSeg : l.nSeg ≤ 2 ^ 31 := hfacts.nSeg_le
  have hmul : ∀ i, i ≤ l.nSeg → i * p.segmentMax ≤ 2 ^ 47 := fun i hi =>
    (Nat.mul_le_mul (hi.trans hnSeg) hmax).trans (by norm_num)
  have hnEp : l.nEp ≤ l.nSeg := by
    by_contra hlt
    have := (hfacts.ep l.nSeg).mp (not_le.mp hlt)
    have := Nat.le_mul_of_pos_right l.nSeg (Nat.two_pow_pos p.epochLength)
    omega
  refine ⟨?_, hnSeg, hnEp.trans hnSeg, ?_, ?_, ?_, hmul⟩
  · have hlast := mt (hfacts.seg l.nSeg).mpr (lt_irrefl _)
    exact (not_lt.mp hlast).trans (hmul l.nSeg le_rfl)
  · exact (Nat.mul_le_mul (hnEp.trans hnSeg) hp.nh).trans (by norm_num)
  · have hmeta : l.metaLen ≤ 80 := by
      rw [hfacts.metaLen, META_TAG_LENGTH]
      have := hp.nh
      omega
    exact (Nat.mul_le_mul hnSeg hmeta).trans (by norm_num)
  · rw [(layout_counts h).firstBlockOffset]
    exact ceilDiv_mul_lt _ hpos

theorem div_segmentMax {p : LayoutParams} (hp : p.Bounded) {n : ℕ} (hn : n < 2 ^ 53) :
    ceilNumber (div n p.segmentMax) = (ceilDiv n p.segmentMax : ℕ) := by
  obtain ⟨k, hk, hseg⟩ := hp.segmentMax
  rw [hseg, div_two_pow hn (by omega), ceilNumber_div n (Nat.two_pow_pos k)]

theorem layoutNumbers_eq_ok {p : LayoutParams} {l : Layout} (hp : p.Bounded)
    (h : layout p = .ok l) : layoutNumbers p = .ok l.numbers := by
  have hb := layout_bounds hp h
  have hc := layout_counts h
  obtain ⟨k, hk, hseg⟩ := hp.segmentMax
  have hf := layout_eq_ok (hseg ▸ Nat.two_pow_pos k) h
  have hnh := hp.nh
  have hmeta : l.metaLen = p.nh + 16 := hf.metaLen
  have hsafe := hf.safe
  obtain ⟨n, hn⟩ := Int.eq_ofNat_of_zero_le hf.pos.le
  have hnat : p.plaintextLength.toNat = n := by omega
  have hlen : (p.plaintextLength : ℚ) = (n : ℕ) := by rw [hn, Int.cast_natCast]
  have hlt : n < 2 ^ 53 := by have := hb.plaintextLength; omega
  have hpositive : 0 < l.nSeg := (hf.seg 0).mpr (by have := hf.pos; omega)
  have hsegments : ceilNumber (div p.plaintextLength p.segmentMax) = (l.nSeg : ℚ) := by
    rw [hlen, div_segmentMax hp hlt, hc.nSeg, hnat]
  have hepochs : ceilNumber (div l.nSeg (pow 2 p.epochLength)) = (l.nEp : ℚ) := by
    have := hp.epochLength
    have := hb.nSeg
    rw [pow_two_natCast (by omega), div_two_pow (by omega) (by omega), ceilNumber_div _ (Nat.two_pow_pos _),
      hc.nEp]
  have hmetaLen : add p.nh META_TAG_LENGTH = (l.metaLen : ℚ) := by
    rw [add_natCast (by rw [META_TAG_LENGTH]; omega), hf.metaLen]
  have hheads : add 32 (mul 2 p.nh) = (l.epochHeadsOffset : ℚ) := by
    have hmul := mul_natCast (a := 2) (b := p.nh) (by omega)
    have hadd := add_natCast (a := 32) (b := 2 * p.nh) (by omega)
    rw [Nat.cast_ofNat] at hmul hadd
    rw [hmul, hadd, hf.heads]
  have hleaves : add (l.epochHeadsOffset : ℚ) (mul l.nEp p.nh) = (l.metaOffset : ℚ) := by
    have := hb.heads
    have := hf.heads
    rw [mul_natCast (by omega), add_natCast (by omega), hf.metaOffset]
  have hheader : add (l.metaOffset : ℚ) (mul l.nSeg l.metaLen) = (l.headerSize : ℚ) := by
    have := hb.leaves
    have := hb.heads
    have := hf.heads
    have := hf.metaOffset
    rw [mul_natCast (by omega), add_natCast (by omega), hf.header]
  have hheaderSize : l.headerSize < 2 ^ 40 := by
    have := hb.leaves
    have := hb.heads
    have := hf.heads
    have := hf.metaOffset
    have := hf.header
    omega
  have hmax : p.segmentMax ≤ 2 ^ 16 := hseg ▸ Nat.pow_le_pow_right two_pos hk
  have hfirst : mul (ceilNumber (div l.headerSize p.segmentMax)) p.segmentMax =
      (l.firstBlockOffset : ℚ) := by
    have := hb.firstBlock
    have hoffset := hc.firstBlockOffset
    rw [div_segmentMax hp (by omega), mul_natCast (by omega), ← hoffset]
  have hfull : mul (sub l.nSeg 1) p.segmentMax = ((l.nSeg - 1) * p.segmentMax : ℕ) := by
    have hsub := sub_natCast (a := l.nSeg) (b := 1) hpositive (by have := hb.nSeg; omega)
    rw [Nat.cast_one] at hsub
    have := hb.blocks (l.nSeg - 1) (Nat.sub_le ..)
    rw [hsub, mul_natCast (by omega)]
  have hlast := (hf.seg (l.nSeg - 1)).mp (by omega)
  have hlastLen : sub p.plaintextLength ((l.nSeg - 1) * p.segmentMax : ℕ) =
      (n - (l.nSeg - 1) * p.segmentMax : ℕ) := by
    rw [hlen, sub_natCast (by omega) hlt]
  have htotal : add (add l.firstBlockOffset ((l.nSeg - 1) * p.segmentMax : ℕ))
      (n - (l.nSeg - 1) * p.segmentMax : ℕ) = (l.totalSize : ℚ) := by
    have := hb.firstBlock
    have := hb.plaintextLength
    have := hf.total
    rw [add_natCast (by omega), add_natCast (by omega)]
    congr 1
    omega
  have hsnapshot : add 32 p.nh = (l.snapshotOffset : ℚ) := by
    have hadd := add_natCast (a := 32) (b := p.nh) (by omega)
    rw [Nat.cast_ofNat] at hadd
    rw [hadd, hc.snapshotOffset]
  have hmaxSeg : ¬(l.nSeg : ℚ) > MAX_SEGMENTS := by
    rw [gt_iff_lt, not_lt]
    exact_mod_cast hf.nSeg_le
  unfold layoutNumbers
  rw [if_neg (not_not.mpr ⟨hf.pos, hsafe⟩)]
  simp only [hsegments, if_neg hmaxSeg, hepochs, hmetaLen, hheads, hleaves, hheader, hfirst, hfull,
    hlastLen, htotal, hsnapshot]
  simp only [Layout.numbers, hc.saltOffset, hc.commitmentOffset, Nat.cast_zero, Nat.cast_ofNat]
  rfl

/-- The layout is computed without rounding, and rejects what it rejects without. -/
theorem layoutNumbers_eq {p : LayoutParams} (hp : p.Bounded) :
    layoutNumbers p = (layout p).map Layout.numbers := by
  cases h : layout p with
  | ok l => rw [layoutNumbers_eq_ok hp h, map_ok]
  | error e =>
    unfold layout at h
    unfold layoutNumbers
    by_cases hsafe : ¬(0 < p.plaintextLength ∧ p.plaintextLength ≤ MAX_SAFE_INTEGER)
    · rw [if_pos hsafe] at h ⊢
      exact congrArg Except.error (Except.error.inj h)
    rw [if_neg hsafe] at h ⊢
    dsimp only at h
    have hmax : ceilDiv p.plaintextLength.toNat p.segmentMax > MAX_SEGMENTS := by
      by_contra hle
      rw [if_neg hle] at h
      cases h
    rw [if_pos hmax] at h
    obtain ⟨n, hn⟩ := Int.eq_ofNat_of_zero_le (not_not.mp hsafe).1.le
    have hlt : n < 2 ^ 53 := by
      have := (not_not.mp hsafe).2
      rw [MAX_SAFE_INTEGER] at this
      omega
    rw [hn, Int.toNat_natCast] at hmax
    rw [hn, Int.cast_natCast, div_segmentMax hp hlt, if_pos (by exact_mod_cast hmax)]
    exact congrArg Except.error (Except.error.inj h)

theorem segmentLengthNumber_eq {p : LayoutParams} {l : Layout} (hp : p.Bounded)
    (h : layout p = .ok l) {i : ℕ} (hi : i < l.nSeg) :
    segmentLengthNumber l.numbers p i = (segmentLength l p i).map Nat.cast := by
  have hb := layout_bounds hp h
  obtain ⟨k, -, hseg⟩ := hp.segmentMax
  have hf := layout_eq_ok (hseg ▸ Nat.two_pow_pos k) h
  have hsub := sub_natCast (a := l.nSeg) (b := 1) (by omega) (by have := hb.nSeg; omega)
  rw [Nat.cast_one] at hsub
  have hlast : ((i : ℚ) < (l.nSeg - 1 : ℕ)) ↔ i < l.nSeg - 1 := Nat.cast_lt
  have hend : ¬((i : ℚ) < 0 ∨ (i : ℚ) ≥ l.numbers.nSeg) := by
    rintro (hneg | hge)
    · exact absurd hneg (not_lt.mpr (Nat.cast_nonneg i))
    · exact absurd (Nat.cast_le.mp hge) (by omega)
  have hin : ¬i ≥ l.nSeg := by omega
  unfold segmentLengthNumber segmentLength
  rw [if_neg hend, if_neg hin]
  simp only [Layout.numbers, hsub, hlast]
  split_ifs with hshort
  · rfl
  · obtain ⟨n, hn⟩ := Int.eq_ofNat_of_zero_le hf.pos.le
    have hstart := (hf.seg i).mp hi
    have := hb.plaintextLength
    rw [hn, Int.toNat_natCast] at *
    rw [Int.cast_natCast, mul_natCast (by omega), sub_natCast (by omega) (by omega)]
    rfl

theorem blockRangeNumbers_eq {p : LayoutParams} {l : Layout} (hp : p.Bounded)
    (h : layout p = .ok l) {i : ℕ} (hi : i < l.nSeg) :
    blockRangeNumbers l.numbers p i = (blockRange l p i).map ByteRange.numbers := by
  have hb := layout_bounds hp h
  have hblock := hb.blocks i hi.le
  obtain ⟨k, hk, hseg⟩ := hp.segmentMax
  have hmax : p.segmentMax ≤ 2 ^ 16 := hseg ▸ Nat.pow_le_pow_right two_pos hk
  have hf := layout_eq_ok (hseg ▸ Nat.two_pow_pos k) h
  have hfirst : l.firstBlockOffset < 2 ^ 40 := by
    have := hb.firstBlock
    have := hb.leaves
    have := hb.heads
    have := hf.heads
    have := hf.metaOffset
    have := hf.header
    have := hp.nh
    omega
  unfold blockRangeNumbers blockRange
  rw [segmentLengthNumber_eq hp h hi, segmentLength_eq_ok hf hi, map_ok, ok_bind, ok_bind]
  simp only [Layout.numbers]
  rw [mul_natCast (by omega), add_natCast (by omega)]
  rfl

theorem metaRangeNumbers_eq {p : LayoutParams} {l : Layout} (hp : p.Bounded)
    (h : layout p = .ok l) {i : ℕ} (hi : i < l.nSeg) :
    metaRangeNumbers l.numbers i = (metaRange l i).numbers := by
  have hb := layout_bounds hp h
  obtain ⟨k, -, hseg⟩ := hp.segmentMax
  have hf := layout_eq_ok (hseg ▸ Nat.two_pow_pos k) h
  have hleaf := Nat.mul_le_mul_right l.metaLen hi.le
  have hmeta : l.metaOffset < 2 ^ 40 := by
    have := hb.heads
    have := hf.heads
    have := hf.metaOffset
    have := hp.nh
    omega
  have := hb.leaves
  simp only [metaRangeNumbers, Layout.numbers, metaRange, ByteRange.numbers]
  rw [mul_natCast (by omega), add_natCast (by omega)]

theorem epochOfNumber_eq {p : LayoutParams} (hp : p.Bounded) {i : ℕ} (hi : i < 2 ^ 53) :
    epochOfNumber p i = (epochOf p i : ℕ) := by
  have := hp.epochLength
  rw [epochOfNumber, pow_two_natCast (by omega), div_two_pow hi (by omega), floorNumber_div, epochOf]

end WebcryptoMls
