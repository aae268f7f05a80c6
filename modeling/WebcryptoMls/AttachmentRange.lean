import WebcryptoMls.AttachmentReader
import WebcryptoMls.SealRoundTrip
import WebcryptoMls.Records

/-!
# Range reads

A slice of the plaintext from a few ranges of the object. What is fetched is kept
by the offset of its range, and everything the checks need is looked up in it; the
blocks of the slice are decrypted together and cut to its bounds.
-/
namespace WebcryptoMls
open Slices Records

structure RangeRequest where
  offset : ℤ
  length : ℤ

/-- `Number.isSafeInteger` -/
def isSafeInteger (n : ℤ) : Bool := decide (-MAX_SAFE_INTEGER ≤ n ∧ n ≤ MAX_SAFE_INTEGER)

/-- What is to be fetched for a range; `decryptRangeStream` is its `decrypt`. -/
def openAttachmentRange (cek : Bytes) (ref : AttachmentRef) (range : RangeRequest)
    (crypto : SealCrypto) : Except MlsError RangePlan := do
  validateAttachmentRef ref (some crypto.kdf.size)
  assertCekLength cek
  if !isSafeInteger range.offset || !isSafeInteger range.length then throw attachmentError
  else if ref.plaintextLength ≤ 0 ∨ ref.plaintextLength > MAX_SAFE_INTEGER then
    throw attachmentError
  else rangesFor (layoutParams ref.plaintextLength crypto) range.offset range.length

/-- Reads a source to its end, which may not lie behind what is expected. -/
def drainFrom (expected : ℕ) : ℕ → List Bytes → Except MlsError (List Bytes)
  | _, [] => pure []
  | received, chunk :: source =>
    let received := received + chunk.length
    if received > expected then throw attachmentError
    else do
      let chunks ← drainFrom expected received source
      pure (chunk :: chunks)

def drainStream (source : List Bytes) (expected : ℕ) : Except MlsError Bytes := do
  let chunks ← drainFrom expected 0 source
  pure (concatAll chunks)

/-- The bytes of a range, of its length, go into the view at its offset. -/
def viewRange (view : Record ℕ Bytes) (fetched : ByteRange × Bytes) :
    Except MlsError (Record ℕ Bytes) :=
  if fetched.2.length ≠ fetched.1.length then throw attachmentError
  else pure (view.set fetched.1.offset fetched.2)

/-- The first entry of the view around a stretch. -/
def findAround (view : Record ℕ Bytes) (start stop : ℕ) : Option (ℕ × Bytes) :=
  view.entries.find? fun entry => entry.1 ≤ start && stop ≤ entry.1 + entry.2.length

/-- What the view holds of a stretch. -/
def sliceOfView (view : Record ℕ Bytes) (start stop : ℕ) : Except MlsError Bytes :=
  match findAround view start stop with
  | none => throw attachmentError
  | some (offset, bytes) => pure (slice bytes (start - offset) (stop - offset))

/-- The padding, where there is any, is fetched and zero. -/
def checkGap (l : Layout) (view : Record ℕ Bytes) : Except MlsError Unit :=
  if l.firstBlockOffset > l.headerSize then
    match findAround view l.headerSize l.firstBlockOffset with
    | none => throw attachmentError
    | some (offset, bytes) =>
      if !isZeroRegion bytes (l.headerSize - offset) (l.firstBlockOffset - offset) then
        throw attachmentError
      else pure ()
  else pure ()

/-- The run of an epoch goes to its place in the metadata. -/
def copyEpochRun (l : Layout) (nh : ℕ) (view : Record ℕ Bytes) (metadata : Bytes) (e : ℕ) :
    Except MlsError Bytes := do
  let first := e * perEpoch
  let count := min perEpoch (l.nSeg - first)
  let metaOffset := l.metaOffset + first * (nh + 16)
  let metaLen := count * (nh + 16)
  let epochRun ← sliceOfView view metaOffset (metaOffset + metaLen)
  setBytes metadata epochRun (metaOffset - l.metaOffset)

/-- A block that is fetched, decrypted. -/
def openFetchedBlock (ctx : HeaderContext) (view : Record ℕ Bytes) (i : ℕ) :
    Except MlsError Bytes := do
  let l := ctx.header.l
  let blockLen ← segmentLength l ctx.header.layoutParams i
  let blockOffset := l.firstBlockOffset + i * SEGMENT_MAX
  let block ← sliceOfView view blockOffset (blockOffset + blockLen)
  openBlock ctx i block

/-- `rangeBytes[0]` -/
def firstRange : List Bytes → Except MlsError Bytes
  | [] => throw (typeError "Cannot read properties of undefined (reading 'length')")
  | first :: _ => pure first

/-- What `start` does before anything is emitted. -/
def startRange (cek : Bytes) (ref : AttachmentRef) (range : RangeRequest) (p : LayoutParams)
    (l : Layout) (plan : RangePlan) (streams : List (List Bytes)) (crypto : SealCrypto) :
    Except MlsError Bytes :=
  if streams.length ≠ plan.ranges.length then throw attachmentError
  else do
    let rangeBytes ← (streams.zip plan.ranges).mapM fun s => drainStream s.1 s.2.length
    let view ← (plan.ranges.zip rangeBytes).foldlM viewRange Record.empty
    checkGap l view
    let firstRangeBytes ← firstRange rangeBytes
    let header ← parsePrefix firstRangeBytes p.plaintextLength crypto.kdf.size
    let state ← verifyRoot cek ref.objectId header ref.snapshot crypto
    let epFirst := epochOf p plan.segFirst
    let epLast := epochOf p plan.segLast
    let metadata ← (upTo epFirst epLast).foldlM (copyEpochRun l crypto.kdf.size view)
      (List.replicate (l.nSeg * (crypto.kdf.size + 16)) 0)
    let ctx : HeaderContext := { state := state, header := header, metadata := metadata }
    let _ ← (upTo epFirst epLast).mapM (verifyEpochRun ctx)
    let plaintextChunks ← (upTo plan.segFirst plan.segLast).mapM (openFetchedBlock ctx view)
    let plainStart := plan.segFirst * SEGMENT_MAX
    let plaintextWindowStart := range.offset.toNat - plainStart
    let plaintextWindowEnd := plaintextWindowStart + range.length.toNat
    pure (slice (concatAll plaintextChunks) plaintextWindowStart plaintextWindowEnd)

/-- `streams` are the chunks of one stream for each range. -/
def decryptRangeStream (cek : Bytes) (ref : AttachmentRef) (range : RangeRequest) (plan : RangePlan)
    (streams : List (List Bytes)) (crypto : SealCrypto) : Except MlsError StreamOutcome := do
  let p := layoutParams ref.plaintextLength crypto
  let l ← layout p
  match startRange cek ref range p l plan streams crypto with
  | .error _ => pure .failed
  | .ok decrypted =>
    if decrypted.length > 0 then pure ⟨[decrypted], .ok ()⟩ else pure ⟨[], .ok ()⟩

/-! ## The plan -/

/-- Some range that is fetched is around the stretch. -/
def Fetched (ranges : List ByteRange) (start stop : ℕ) : Prop :=
  ∃ r ∈ ranges, r.offset ≤ start ∧ stop ≤ r.offset + r.length

/-- What is fetched for a slice of the plaintext. -/
structure PlanFacts (p : LayoutParams) (l : Layout) (range : RangeRequest) (plan : RangePlan) :
    Prop where
  pos : 0 < range.length
  start : 0 ≤ range.offset
  stop : range.offset + range.length ≤ p.plaintextLength
  segFirst : plan.segFirst = range.offset.toNat / SEGMENT_MAX
  segLast : plan.segLast = (range.offset + range.length - 1).toNat / SEGMENT_MAX
  apart : plan.ranges.Pairwise fun a b => a.offset + a.length < b.offset
  inside : ∀ r ∈ plan.ranges, r.offset + r.length ≤ l.totalSize
  fixed : Fetched plan.ranges 0 l.metaOffset
  runs : ∀ e, epochOf p plan.segFirst ≤ e → e ≤ epochOf p plan.segLast →
    Fetched plan.ranges (l.metaOffset + e * perEpoch * l.metaLen)
      (l.metaOffset + epochEnd l e * l.metaLen)
  gap : l.headerSize < l.firstBlockOffset → Fetched plan.ranges l.headerSize l.firstBlockOffset
  blocks : ∀ i, plan.segFirst ≤ i → i ≤ plan.segLast → i < l.nSeg ∧
    Fetched plan.ranges (l.firstBlockOffset + i * SEGMENT_MAX) (l.firstBlockOffset +
      i * SEGMENT_MAX + min SEGMENT_MAX (p.plaintextLength.toNat - i * SEGMENT_MAX))

theorem mem_upTo {first last i : ℕ} : i ∈ upTo first last ↔ first ≤ i ∧ i ≤ last := by
  unfold upTo
  rw [List.mem_range'_1]
  omega

theorem fetched_coalesce {needed : List ByteRange} {r : ByteRange} {start stop : ℕ}
    (hr : r ∈ needed) (hstart : r.offset ≤ start) (hstop : stop ≤ r.offset + r.length) :
    Fetched (coalesce needed) start stop := by
  obtain ⟨r', hr', hle, hge⟩ := (coalesced_coalesce needed).covers r hr
  exact ⟨r', hr', hle.trans hstart, hstop.trans hge⟩

/-- The metadata of an epoch ends where its last segment's does. -/
theorem epochMetaRange_eq {p : LayoutParams} {l : Layout} (hfacts : LayoutFacts p l)
    (hep : p.epochLength = ATTACHMENT_EPOCH_LENGTH) {e : ℕ} (he : e < l.nEp) :
    (epochMetaRange l p e).offset = l.metaOffset + e * perEpoch * l.metaLen ∧
    (epochMetaRange l p e).offset + (epochMetaRange l p e).length =
      l.metaOffset + epochEnd l e * l.metaLen := by
  have hstart : e * perEpoch < l.nSeg := by
    have := (hfacts.ep e).mp he
    rwa [hep] at this
  have hend : e * perEpoch + min perEpoch (l.nSeg - e * perEpoch) = epochEnd l e := by
    unfold epochEnd
    rw [Nat.succ_mul]
    omega
  have hrange : epochMetaRange l p e = {
      offset := l.metaOffset + e * perEpoch * l.metaLen
      length := min perEpoch (l.nSeg - e * perEpoch) * l.metaLen } := by
    unfold epochMetaRange
    rw [hep]
    rfl
  rw [hrange, ← hend, Nat.add_mul, ← Nat.add_assoc]
  exact ⟨rfl, rfl⟩

theorem rangesFor_eq_ok {p : LayoutParams} {l : Layout} {range : RangeRequest} {plan : RangePlan}
    (hp : p.segmentMax = SEGMENT_MAX) (hep : p.epochLength = ATTACHMENT_EPOCH_LENGTH)
    (hl : layout p = .ok l) (h : rangesFor p range.offset range.length = .ok plan) :
    PlanFacts p l range plan := by
  have hfacts := layout_eq_ok (hp ▸ SEGMENT_MAX_pos) hl
  unfold rangesFor at h
  split_ifs at h with hbounds
  push Not at hbounds
  obtain ⟨-, -, hpos, hstart, hstop⟩ := hbounds
  obtain ⟨l', hl', h⟩ := bind_eq_ok.mp h
  obtain rfl := Except.ok.inj (hl.symm.trans hl')
  obtain ⟨blocks, hblocks, h⟩ := bind_eq_ok.mp h
  have hplan := (Except.ok.inj h).symm
  rw [hp] at hblocks hplan
  -- Every segment of the slice is one of the object, and so is its epoch.
  have hseg : ∀ i, i ≤ (range.offset + range.length - 1).toNat / SEGMENT_MAX → i < l.nSeg := by
    intro i hi
    have hle := Nat.mul_le_mul_right SEGMENT_MAX hi
    have hdiv := Nat.div_mul_le_self (range.offset + range.length - 1).toNat SEGMENT_MAX
    rw [hfacts.seg, hp]
    omega
  have hepoch : ∀ e, e ≤ epochOf p ((range.offset + range.length - 1).toNat / SEGMENT_MAX) →
      e < l.nEp := by
    intro e he
    rw [hfacts.ep]
    have hle := Nat.mul_le_mul_right (2 ^ p.epochLength) he
    have hdiv := Nat.div_mul_le_self ((range.offset + range.length - 1).toNat / SEGMENT_MAX)
      (2 ^ p.epochLength)
    exact lt_of_le_of_lt (hle.trans hdiv) (hseg _ le_rfl)
  have hblocks' := hblocks.symm.trans (mapM_eq_ok fun i hi =>
    blockRange_eq_ok hfacts (hseg i (mem_upTo.mp hi).2))
  obtain rfl := Except.ok.inj hblocks'
  have hmeta := hfacts.metaOffset
  have hheader := hfacts.header
  have hgap := hfacts.gap
  have htotal := hfacts.total
  subst hplan
  refine ⟨hpos, hstart, hstop, rfl, rfl, (coalesced_coalesce _).apart, ?_, ?_, ?_, ?_, ?_⟩
  · intro r' hr'
    obtain ⟨r, hr, hend⟩ := (coalesced_coalesce _).ends r' hr'
    rw [hend]
    simp only [List.cons_append, List.mem_cons, List.mem_append, List.mem_map, mem_upTo] at hr
    rcases hr with rfl | (⟨e, he, rfl⟩ | hr) | ⟨i, hi, rfl⟩
    · simp only
      omega
    · have hle : epochEnd l e * l.metaLen ≤ l.nSeg * l.metaLen :=
        Nat.mul_le_mul_right _ (min_le_right ..)
      rw [(epochMetaRange_eq hfacts hep (hepoch e he.2)).2]
      omega
    · split_ifs at hr with hpadding
      · obtain rfl := List.mem_singleton.mp hr
        simp only
        omega
      · cases hr
    · have hi := (hfacts.seg i).mp (hseg i hi.2)
      simp only
      omega
  · refine fetched_coalesce (r := { offset := 0, length := l.epochHeadsOffset + l.nEp * p.nh })
      (by simp) le_rfl ?_
    simp only
    omega
  · intro e hfirst hlast
    obtain ⟨hoffset, hend⟩ := epochMetaRange_eq hfacts hep (hepoch e hlast)
    have hmem : e ∈ upTo (epochOf p (range.offset.toNat / SEGMENT_MAX))
        (epochOf p ((range.offset + range.length - 1).toNat / SEGMENT_MAX)) :=
      mem_upTo.mpr ⟨hfirst, hlast⟩
    refine fetched_coalesce (r := epochMetaRange l p e) ?_ hoffset.le hend.ge
    simp only [List.cons_append, List.mem_cons, List.mem_append, List.mem_map]
    exact .inr (.inl (.inl ⟨e, hmem, rfl⟩))
  · intro hpadding
    refine fetched_coalesce (r := {
      offset := l.headerSize
      length := l.firstBlockOffset - l.headerSize }) (by simp [hpadding]) le_rfl ?_
    simp only
    omega
  · intro i hfirst hlast
    refine ⟨hseg i hlast, fetched_coalesce (r := {
      offset := l.firstBlockOffset + i * p.segmentMax
      length := min p.segmentMax (p.plaintextLength.toNat - i * p.segmentMax) }) ?_ ?_ ?_⟩
    · simp only [List.cons_append, List.mem_cons, List.mem_append, List.mem_map]
      exact .inr (.inr ⟨i, mem_upTo.mpr ⟨hfirst, hlast⟩, rfl⟩)
    · rw [hp]
    · rw [hp]

/-! ## The view -/

/-- The view holds slices of the object: those that were fetched. -/
structure Views (bytes : Bytes) (ranges : List ByteRange) (view : Record ℕ Bytes) : Prop where
  holds : ∀ entry ∈ view.entries,
    entry.2 = slice bytes entry.1 (entry.1 + entry.2.length)
  fetched : ∀ r ∈ ranges, ∃ entry ∈ view.entries, entry.1 = r.offset ∧ entry.2.length = r.length

theorem viewRange_ok {bytes : Bytes} {seen : List ByteRange} {view : Record ℕ Bytes}
    {r : ByteRange} (h : Views bytes seen view) (hinside : r.offset + r.length ≤ bytes.length)
    (hr : ∀ x ∈ seen, x.offset ≠ r.offset) :
    ∃ view', viewRange view (r, slice bytes r.offset (r.offset + r.length)) = .ok view' ∧
      Views bytes (seen ++ [r]) view' := by
  have hlen : (slice bytes r.offset (r.offset + r.length)).length = r.length := by
    rw [length_slice hinside, Nat.add_sub_cancel_left]
  unfold viewRange
  rw [if_neg (not_not.mpr hlen)]
  refine ⟨_, rfl, fun entry hentry => ?_, fun x hx => ?_⟩
  · obtain ⟨offset, value⟩ := entry
    rw [← Record.get_eq_some, Record.get_set] at hentry
    split_ifs at hentry with heq
    · obtain rfl := Option.some.inj hentry
      obtain rfl := heq
      simp only [hlen]
    · exact h.holds _ (Record.get_eq_some.mp hentry)
  · rcases List.mem_append.mp hx with hx | hx
    · obtain ⟨⟨offset, value⟩, hmem, hoffset, hlength⟩ := h.fetched x hx
      simp only at hoffset hlength
      refine ⟨(offset, value), Record.get_eq_some.mp ?_, hoffset, hlength⟩
      rw [Record.get_set_of_ne _ _ (by rw [hoffset]; exact hr x hx)]
      exact Record.get_eq_some.mpr hmem
    · obtain rfl := List.mem_singleton.mp hx
      exact ⟨(x.offset, _), Record.get_eq_some.mp (Record.get_set_self ..), rfl, hlen⟩

/-- Ranges apart from each other, with the bytes at them, make a view. -/
theorem foldlM_viewRange_ok {bytes : Bytes} (ranges : List ByteRange) {seen : List ByteRange}
    {view : Record ℕ Bytes} (h : Views bytes seen view)
    (hinside : ∀ r ∈ ranges, r.offset + r.length ≤ bytes.length)
    (hapart : ((seen ++ ranges).map ByteRange.offset).Nodup) :
    ∃ view', (ranges.map fun r => (r, slice bytes r.offset (r.offset + r.length))).foldlM
      viewRange view = .ok view' ∧ Views bytes (seen ++ ranges) view' := by
  induction ranges generalizing seen view with
  | nil => exact ⟨view, rfl, by simpa using h⟩
  | cons r ranges ih =>
    rw [List.forall_mem_cons] at hinside
    have hfresh : ∀ x ∈ seen, x.offset ≠ r.offset := by
      intro x hx
      rw [List.map_append, List.nodup_append] at hapart
      exact hapart.2.2 _ (List.mem_map_of_mem hx) _ (by simp)
    obtain ⟨view', hview', hviews⟩ := viewRange_ok h hinside.1 hfresh
    obtain ⟨view'', hview'', hviews''⟩ := ih hviews hinside.2 (by simpa using hapart)
    refine ⟨view'', ?_, by simpa using hviews''⟩
    rw [List.map_cons, List.foldlM_cons, hview', ok_bind, hview'']

/-- The view is looked up around a stretch that was fetched. -/
theorem Views.findAround {bytes : Bytes} {ranges : List ByteRange} {view : Record ℕ Bytes}
    (h : Views bytes ranges view) {start stop : ℕ} (hfetched : Fetched ranges start stop) :
    ∃ offset value, WebcryptoMls.findAround view start stop = some (offset, value) ∧
      offset ≤ start ∧ stop ≤ offset + value.length ∧
      value = slice bytes offset (offset + value.length) := by
  obtain ⟨r, hr, hstart, hstop⟩ := hfetched
  obtain ⟨entry, hentry, hoffset, hlength⟩ := h.fetched r hr
  unfold WebcryptoMls.findAround
  cases hfind : view.entries.find? fun entry =>
      decide (entry.1 ≤ start) && decide (stop ≤ entry.1 + entry.2.length) with
  | none =>
    have hnone := List.find?_eq_none.mp hfind entry hentry
    simp only [Bool.and_eq_true, decide_eq_true_eq] at hnone
    omega
  | some found =>
    have hfound := List.find?_some hfind
    simp only [Bool.and_eq_true, decide_eq_true_eq] at hfound
    exact ⟨found.1, found.2, rfl, hfound.1, hfound.2, h.holds _ (List.mem_of_find?_eq_some hfind)⟩

theorem Views.sliceOfView {bytes : Bytes} {ranges : List ByteRange} {view : Record ℕ Bytes}
    (h : Views bytes ranges view) {start stop : ℕ} (hle : start ≤ stop)
    (hfetched : Fetched ranges start stop) :
    WebcryptoMls.sliceOfView view start stop = .ok (slice bytes start stop) := by
  obtain ⟨offset, value, hfind, hoffset, hstop, hvalue⟩ := h.findAround hfetched
  unfold WebcryptoMls.sliceOfView
  rw [hfind]
  simp only
  rw [hvalue, slice_slice bytes (by omega), show offset + (start - offset) = start by omega,
    show offset + (stop - offset) = stop by omega]
  rfl

theorem Views.checkGap {bytes : Bytes} {ranges : List ByteRange} {view : Record ℕ Bytes}
    {l : Layout} (h : Views bytes ranges view)
    (hfetched : l.headerSize < l.firstBlockOffset →
      Fetched ranges l.headerSize l.firstBlockOffset)
    (hgap : isZeroRegion bytes l.headerSize l.firstBlockOffset = true) :
    WebcryptoMls.checkGap l view = .ok () := by
  unfold WebcryptoMls.checkGap
  by_cases hpadding : l.firstBlockOffset > l.headerSize
  · obtain ⟨offset, value, hfind, hoffset, hstop, hvalue⟩ := h.findAround (hfetched hpadding)
    have hzero : isZeroRegion value (l.headerSize - offset) (l.firstBlockOffset - offset) = true := by
      rw [isZeroRegion_iff] at hgap ⊢
      rw [hvalue, slice_slice bytes (by omega),
        show offset + (l.headerSize - offset) = l.headerSize by omega,
        show offset + (l.firstBlockOffset - offset) = l.firstBlockOffset by omega, hgap]
      congr 1
      omega
    rw [if_pos hpadding, hfind]
    simp only [hzero]
    rfl
  · rw [if_neg hpadding]
    rfl

/-! ## Draining -/

theorem drainFrom_ok {expected : ℕ} (source : List Bytes) {received : ℕ}
    (h : received + source.flatten.length ≤ expected) :
    drainFrom expected received source = .ok source := by
  induction source generalizing received with
  | nil => rfl
  | cons chunk source ih =>
    rw [List.flatten_cons, List.length_append] at h
    unfold drainFrom
    rw [if_neg (by omega), ih (by omega)]
    rfl

/-- Each stream delivers the bytes at its range, in any chunks. -/
def Served (bytes : Bytes) (ranges : List ByteRange) (streams : List (List Bytes)) : Prop :=
  streams.map List.flatten = ranges.map fun r => slice bytes r.offset (r.offset + r.length)

theorem mapM_drainStream_ok {bytes : Bytes} {ranges : List ByteRange}
    {streams : List (List Bytes)} (h : Served bytes ranges streams) :
    (streams.zip ranges).mapM (fun s => drainStream s.1 s.2.length) =
      .ok (ranges.map fun r => slice bytes r.offset (r.offset + r.length)) := by
  unfold Served at h
  induction ranges generalizing streams with
  | nil =>
    obtain rfl := List.map_eq_nil_iff.mp h
    rfl
  | cons r ranges ih =>
    obtain ⟨stream, streams, rfl, hfirst, hrest⟩ := List.map_eq_cons_iff.mp h
    have hfirst : stream.flatten = slice bytes r.offset (r.offset + r.length) := hfirst
    have hlen := length_slice_le bytes r.offset (r.offset + r.length)
    rw [← hfirst] at hlen
    have hdrain : drainStream stream r.length = .ok stream.flatten := by
      unfold drainStream
      rw [drainFrom_ok stream (by omega)]
      rfl
    rw [List.zip_cons_cons, List.mapM_cons, hdrain, ok_bind, ih hrest, ok_bind, List.map_cons, hfirst]
    rfl

/-- The first range is around the fixed prefix and the heads. -/
theorem PlanFacts.first {p : LayoutParams} {l : Layout} {range : RangeRequest} {plan : RangePlan}
    (h : PlanFacts p l range plan) :
    ∃ r rest, plan.ranges = r :: rest ∧ r.offset = 0 ∧ l.metaOffset ≤ r.length := by
  obtain ⟨r, hr, hstart, hstop⟩ := h.fixed
  have hapart := h.apart
  cases hranges : plan.ranges with
  | nil =>
    rw [hranges] at hr
    cases hr
  | cons first rest =>
    rw [hranges] at hr hapart
    rcases List.mem_cons.mp hr with rfl | hmem
    · exact ⟨r, rest, rfl, by omega, by omega⟩
    · have := (List.pairwise_cons.mp hapart).1 r hmem
      omega

theorem PlanFacts.nodup {p : LayoutParams} {l : Layout} {range : RangeRequest} {plan : RangePlan}
    (h : PlanFacts p l range plan) : (plan.ranges.map ByteRange.offset).Nodup := by
  rw [List.Nodup, List.pairwise_map]
  exact h.apart.imp fun hab => by omega

/-! ## The metadata -/

variable {bytes : Bytes} {crypto : SealCrypto} {plaintextLength : ℤ} {l : Layout}
  {state : SealState} {range : RangeRequest} {plan : RangePlan}

/-- The metadata after the runs of some epochs were copied. -/
structure RunsCopied (l : Layout) (bytes : Bytes) (first k : ℕ) (metadata : Bytes) : Prop where
  length : metadata.length = l.nSeg * l.metaLen
  runs : ∀ e, first ≤ e → e < k →
    slice metadata (e * perEpoch * l.metaLen) (epochEnd l e * l.metaLen) = runOf l bytes e

theorem copyEpochRun_ok {view : Record ℕ Bytes} {ranges : List ByteRange} {first e : ℕ}
    {metadata : Bytes} (hfacts : LayoutFacts (layoutParams plaintextLength crypto) l)
    (hlen : bytes.length = l.totalSize) (he : e < l.nEp) (hviews : Views bytes ranges view)
    (hfetched : Fetched ranges (l.metaOffset + e * perEpoch * l.metaLen)
      (l.metaOffset + epochEnd l e * l.metaLen)) (h : RunsCopied l bytes first e metadata) :
    ∃ metadata', copyEpochRun l crypto.kdf.size view metadata e = .ok metadata' ∧
      RunsCopied l bytes first (e + 1) metadata' := by
  have hmetaLen : crypto.kdf.size + 16 = l.metaLen := hfacts.metaLen.symm
  obtain ⟨hstart, hnext, hfit, hend⟩ := runsEnd_lt hfacts he
  have hheader := hfacts.header
  have hgap := hfacts.gap
  have htotal := hfacts.total
  rw [hstart] at hnext
  have hrun : WebcryptoMls.sliceOfView view (l.metaOffset + e * perEpoch * l.metaLen)
      (l.metaOffset + epochEnd l e * l.metaLen) = .ok (runOf l bytes e) :=
    hviews.sliceOfView (by omega) hfetched
  have hrunLen : (runOf l bytes e).length = epochEnd l e * l.metaLen - e * perEpoch * l.metaLen := by
    unfold runOf
    rw [length_slice (by omega)]
    omega
  have hfits : e * perEpoch * l.metaLen + (runOf l bytes e).length ≤ metadata.length := by
    rw [h.length]
    omega
  refine ⟨overwrite metadata (runOf l bytes e) (e * perEpoch * l.metaLen), ?_,
    (length_overwrite hfits).trans h.length, fun e' hfirst he' => ?_⟩
  · unfold copyEpochRun
    simp only [hmetaLen]
    rw [show l.metaOffset + e * perEpoch * l.metaLen +
        min perEpoch (l.nSeg - e * perEpoch) * l.metaLen = l.metaOffset + epochEnd l e * l.metaLen
        by omega, hrun, ok_bind, Nat.add_sub_cancel_left, setBytes_ok hfits]
  · by_cases hlast : e' = e
    · subst hlast
      have hself : slice (overwrite metadata (runOf l bytes e') (e' * perEpoch * l.metaLen))
          (e' * perEpoch * l.metaLen) (e' * perEpoch * l.metaLen + (runOf l bytes e').length) =
            runOf l bytes e' := slice_overwrite_self (by omega)
      rwa [show e' * perEpoch * l.metaLen + (runOf l bytes e').length =
        epochEnd l e' * l.metaLen by omega] at hself
    · have hlt : e' < e := by omega
      have hbefore : epochEnd l e' * l.metaLen ≤ e * perEpoch * l.metaLen :=
        Nat.mul_le_mul_right _ ((min_le_left ..).trans (Nat.mul_le_mul_right _ hlt))
      rw [slice_overwrite_of_disjoint hfits (.inl hbefore)]
      exact h.runs e' hfirst hlt

theorem foldlM_copyEpochRun_ok {view : Record ℕ Bytes} {ranges : List ByteRange}
    {epFirst epLast : ℕ} (hfacts : LayoutFacts (layoutParams plaintextLength crypto) l)
    (hlen : bytes.length = l.totalSize) (hle : epFirst ≤ epLast) (he : epLast < l.nEp)
    (hviews : Views bytes ranges view)
    (hfetched : ∀ e, epFirst ≤ e → e ≤ epLast →
      Fetched ranges (l.metaOffset + e * perEpoch * l.metaLen)
        (l.metaOffset + epochEnd l e * l.metaLen)) :
    ∃ metadata, (upTo epFirst epLast).foldlM (copyEpochRun l crypto.kdf.size view)
        (List.replicate (l.nSeg * (crypto.kdf.size + 16)) 0) = .ok metadata ∧
      RunsCopied l bytes epFirst (epLast + 1) metadata := by
  have hmetaLen : crypto.kdf.size + 16 = l.metaLen := hfacts.metaLen.symm
  have hzero : RunsCopied l bytes epFirst epFirst
      (List.replicate (l.nSeg * (crypto.kdf.size + 16)) 0) :=
    ⟨by rw [List.length_replicate, hmetaLen], fun e hfirst hlt => by omega⟩
  obtain ⟨metadata, hfold, hcopied⟩ := foldlM_range'_ok (n := epLast + 1 - epFirst) hzero
    fun e hfirst hlast metadata h => copyEpochRun_ok hfacts hlen (by omega) hviews
      (hfetched e hfirst (by omega)) h
  rw [show epFirst + (epLast + 1 - epFirst) = epLast + 1 by omega] at hcopied
  exact ⟨metadata, hfold, hcopied⟩

/-- The context blocks that were fetched are opened in. -/
def fetchedContext (plaintextLength : ℤ) (crypto : SealCrypto) (l : Layout) (state : SealState)
    (bytes metadata : Bytes) : HeaderContext where
  state := state
  header := headerOf plaintextLength crypto l bytes
  metadata := metadata

theorem RunsCopied.verifyEpochRun {epFirst k e : ℕ} {metadata : Bytes}
    (hfacts : LayoutFacts (layoutParams plaintextLength crypto) l) (hcrypto : state.crypto = crypto)
    (h : RunsCopied l bytes epFirst k metadata) (hfirst : epFirst ≤ e) (hk : e < k) (he : e < l.nEp)
    (hhead : epochHead state (runOf l bytes e) = .ok (headBytes l crypto.kdf.size bytes e)) :
    WebcryptoMls.verifyEpochRun (fetchedContext plaintextLength crypto l state bytes metadata) e =
      .ok () := by
  obtain ⟨hstart, hnext, -, hend⟩ := runsEnd_lt hfacts he
  refine (verifyEpochRun_eq_ok hfacts hcrypto he ?_).mpr hhead
  rw [← h.runs e hfirst hk]
  congr 1
  omega

theorem RunsCopied.leaf {epFirst k i : ℕ} {metadata : Bytes}
    (h : RunsCopied l bytes epFirst k metadata) (hfirst : epFirst ≤ i / perEpoch)
    (hk : i / perEpoch < k) (hi : i < l.nSeg) :
    slice metadata (i * l.metaLen) (i * l.metaLen + l.metaLen) = leafBytes l bytes i := by
  obtain ⟨hsplit, hend⟩ := leaf_in_run l hi
  rw [leafBytes_eq_slice bytes hi, ← h.runs _ hfirst hk, slice_slice metadata (by omega)]
  congr 1 <;> omega

/-- A block that was fetched opens as the whole object does there. -/
theorem openFetchedBlock_ok {view : Record ℕ Bytes} {ranges : List ByteRange} {epFirst k i : ℕ}
    {metadata plaintext : Bytes} (hfacts : LayoutFacts (layoutParams plaintextLength crypto) l)
    (h : RunsCopied l bytes epFirst k metadata) (hfirst : epFirst ≤ i / perEpoch)
    (hk : i / perEpoch < k) (hi : i < l.nSeg) (hviews : Views bytes ranges view)
    (hfetched : Fetched ranges (l.firstBlockOffset + i * SEGMENT_MAX) (l.firstBlockOffset +
      i * SEGMENT_MAX + min SEGMENT_MAX (plaintextLength.toNat - i * SEGMENT_MAX)))
    (hopens : SegmentOpens plaintextLength crypto l state bytes i plaintext) :
    openFetchedBlock (fetchedContext plaintextLength crypto l state bytes metadata) view i =
      .ok plaintext := by
  have hlength : segmentLength l (layoutParams plaintextLength crypto) i =
      .ok (min SEGMENT_MAX (plaintextLength.toNat - i * SEGMENT_MAX)) :=
    segmentLength_eq_ok hfacts hi
  have hblock := hviews.sliceOfView (Nat.le_add_right ..) hfetched
  have hopen : openBlock ⟨state, headerOf plaintextLength crypto l bytes, metadata⟩ i
      (blockSlice plaintextLength l bytes i) = .ok plaintext :=
    (openBlock_eq_ok hfacts hi (h.leaf hfirst hk hi)).mpr
      ⟨length_blockSlice hopens.complete, hopens.leaf, hopens.opens⟩
  unfold openFetchedBlock
  simp only [fetchedContext, headerOf, hlength, ok_bind, hblock]
  exact hopen

/-! ## The slice -/

/-- Decryption takes the tag off. -/
def Aead.Shrinks (aead : Aead) (tagLength : ℕ) : Prop :=
  ∀ key nonce aad sealed plaintext, aead.decrypt key nonce aad sealed = .ok plaintext →
    sealed.length = plaintext.length + tagLength

theorem length_openSegment {index : ℕ} {isFinal : Bool} {ciphertext tag extra plaintext : Bytes}
    {nonce : Option Bytes} (haead : state.crypto.aead.Shrinks state.crypto.tagLength)
    (h : openSegment state index isFinal ciphertext tag nonce extra = .ok plaintext) :
    plaintext.length = ciphertext.length := by
  obtain ⟨nonce', -, h⟩ := bind_eq_ok.mp h
  split_ifs at h with htag
  obtain ⟨key, -, h⟩ := bind_eq_ok.mp h
  obtain ⟨aad, -, h⟩ := bind_eq_ok.mp h
  cases hdecrypt : state.crypto.aead.decrypt key nonce' aad (concatAll [ciphertext, tag]) with
  | error err =>
    rw [hdecrypt] at h
    cases h
  | ok opened =>
    rw [hdecrypt] at h
    obtain rfl := Except.ok.inj h
    have hlen := haead _ _ _ _ _ hdecrypt
    simp [concatAll] at hlen
    omega

variable {cek plaintext : Bytes} {ref : AttachmentRef}

/-- The segments of an object that opens, each with the plaintext of its length. -/
theorem segments_of_openObject (haead : crypto.aead.Shrinks crypto.tagLength)
    (h : openObject cek ref.objectId bytes ref.object crypto = .ok plaintext) :
    ∃ l state, ∃ part : ℕ → Bytes, layout (layoutParams ref.plaintextLength crypto) = .ok l ∧
      startOpen cek (sealParams crypto (slice bytes 0 32)) ref.objectId
        (slice bytes 32 (32 + crypto.kdf.size)) crypto = .ok state ∧
      Verified state l crypto.kdf.size ref.snapshot bytes ∧
      (∀ i < l.nSeg, SegmentOpens ref.plaintextLength crypto l state bytes i (part i) ∧
        (part i).length = min SEGMENT_MAX (ref.plaintextLength.toNat - i * SEGMENT_MAX)) ∧
      plaintext = ((List.range l.nSeg).map part).flatten := by
  obtain ⟨-, -, -, l, state, parts, hl, hopened, hv, hparts, rfl⟩ := openObject_eq_ok.mp h
  have hfacts := layout_eq_ok SEGMENT_MAX_pos hl
  obtain ⟨hcrypto, -⟩ := startOpen_eq_ok hopened
  have hstored : ∀ i, ∃ x, i < l.nSeg →
      openStored state l (layoutParams ref.plaintextLength crypto) bytes i = .ok x := by
    intro i
    by_cases hi : i < l.nSeg
    · obtain ⟨x, hx⟩ := exists_ok_of_mapM hparts i (List.mem_range.mpr hi)
      exact ⟨x, fun _ => hx⟩
    · exact ⟨[], fun hlt => absurd hlt hi⟩
  choose part hpart using hstored
  have hmap := mapM_eq_ok (g := part) fun i hi => hpart i (List.mem_range.mp hi)
  obtain rfl := Except.ok.inj (hparts.symm.trans hmap)
  refine ⟨l, state, part, hl, hopened, hv, fun i hi => ?_, rfl⟩
  have hopens := (segmentOpens_iff hfacts hv.length hi).mpr ⟨hv.leaves i hi, hpart i hi⟩
  refine ⟨hopens, ?_⟩
  rw [length_openSegment (hcrypto ▸ haead) hopens.opens, length_blockSlice hopens.complete]
  rfl

theorem openAttachmentRange_ok (h : Readable cek ref crypto)
    (hl : layout (layoutParams ref.plaintextLength crypto) = .ok l) (hstart : 0 ≤ range.offset)
    (hpos : 0 < range.length) (hstop : range.offset + range.length ≤ ref.plaintextLength) :
    ∃ plan, openAttachmentRange cek ref range crypto = .ok plan := by
  have hfacts := layout_eq_ok SEGMENT_MAX_pos hl
  obtain ⟨-, -, hlength, -⟩ := validateAttachmentRef_ok h.valid
  have hsafe := h.safe
  have hmax : (0 : ℤ) ≤ MAX_SAFE_INTEGER := by decide
  have hoffset : isSafeInteger range.offset = true := by
    unfold isSafeInteger
    rw [decide_eq_true_eq]
    omega
  have hrange : isSafeInteger range.length = true := by
    unfold isSafeInteger
    rw [decide_eq_true_eq]
    omega
  have hseg : ∀ i ∈ upTo (range.offset.toNat / SEGMENT_MAX)
      ((range.offset + range.length - 1).toNat / SEGMENT_MAX), i < l.nSeg := by
    intro i hi
    have hle := Nat.mul_le_mul_right SEGMENT_MAX (mem_upTo.mp hi).2
    have hdiv := Nat.div_mul_le_self (range.offset + range.length - 1).toNat SEGMENT_MAX
    rw [hfacts.seg]
    change i * SEGMENT_MAX < ref.plaintextLength.toNat
    omega
  have hblocks : List.mapM (blockRange l (layoutParams ref.plaintextLength crypto)) _ = _ :=
    mapM_eq_ok fun i hi => blockRange_eq_ok hfacts (hseg i hi)
  have hsegmentMax : (layoutParams ref.plaintextLength crypto).segmentMax = SEGMENT_MAX := rfl
  have hbound : range.offset + range.length ≤
    (layoutParams ref.plaintextLength crypto).plaintextLength := hstop
  unfold openAttachmentRange rangesFor
  rw [h.valid, ok_bind, assertCekLength_ok h.cek, ok_bind, hoffset, hrange, if_neg (by decide),
    if_neg (by omega), if_neg (by omega), hl, ok_bind]
  simp only [hsegmentMax]
  rw [hblocks]
  exact ⟨_, rfl⟩

/-- The segments of a slice, cut to its bounds. -/
theorem slice_of_segments {part : ℕ → Bytes} {p : LayoutParams} (hplan : PlanFacts p l range plan)
    (hlen : ∀ i < l.nSeg, (part i).length =
      min SEGMENT_MAX (p.plaintextLength.toNat - i * SEGMENT_MAX))
    (hlast : plan.segLast < l.nSeg) (hle : plan.segFirst ≤ plan.segLast) :
    slice (concatAll ((upTo plan.segFirst plan.segLast).map part))
        (range.offset.toNat - plan.segFirst * SEGMENT_MAX)
        (range.offset.toNat - plan.segFirst * SEGMENT_MAX + range.length.toNat) =
      slice ((List.range l.nSeg).map part).flatten range.offset.toNat
        (range.offset + range.length).toNat := by
  have hpos := hplan.pos
  have hstart := hplan.start
  have hstop := hplan.stop
  have hfirst := Nat.div_mul_le_self range.offset.toNat SEGMENT_MAX
  have hend := Nat.lt_div_mul_add SEGMENT_MAX_pos (a := (range.offset + range.length - 1).toNat)
  rw [← hplan.segFirst] at hfirst
  rw [← hplan.segLast] at hend
  unfold concatAll upTo
  rw [flatten_range'_eq_slice hlen (by omega),
    show plan.segFirst + (plan.segLast + 1 - plan.segFirst) = plan.segLast + 1 by omega,
    Nat.succ_mul]
  generalize plan.segFirst * SEGMENT_MAX = low at hfirst ⊢
  generalize plan.segLast * SEGMENT_MAX + SEGMENT_MAX = high at hend ⊢
  rw [slice_slice _ (by omega)]
  congr 1 <;> omega

/-- A range read of an object that opens decrypts the slice it was opened for. -/
theorem startRange_ok {part : ℕ → Bytes} {streams : List (List Bytes)}
    (hl : layout (layoutParams ref.plaintextLength crypto) = .ok l)
    (hopened : startOpen cek (sealParams crypto (slice bytes 0 32)) ref.objectId
      (slice bytes 32 (32 + crypto.kdf.size)) crypto = .ok state)
    (hv : Verified state l crypto.kdf.size ref.snapshot bytes)
    (hparts : ∀ i < l.nSeg, SegmentOpens ref.plaintextLength crypto l state bytes i (part i) ∧
      (part i).length = min SEGMENT_MAX (ref.plaintextLength.toNat - i * SEGMENT_MAX))
    (hplan : PlanFacts (layoutParams ref.plaintextLength crypto) l range plan)
    (hserved : Served bytes plan.ranges streams) :
    startRange cek ref range (layoutParams ref.plaintextLength crypto) l plan streams crypto =
      .ok (slice ((List.range l.nSeg).map part).flatten range.offset.toNat
        (range.offset + range.length).toNat) := by
  have hfacts := layout_eq_ok SEGMENT_MAX_pos hl
  obtain ⟨hcrypto, -⟩ := startOpen_eq_ok hopened
  have hlen : streams.length = plan.ranges.length := by
    simpa using congrArg List.length hserved
  have hinside : ∀ r ∈ plan.ranges, r.offset + r.length ≤ bytes.length := by
    intro r hr
    rw [hv.length]
    exact hplan.inside r hr
  -- The ranges are drained and viewed, and the prefix is in the first of them.
  have hempty : Views bytes [] Record.empty := ⟨by simp [Record.empty], by simp⟩
  obtain ⟨view, hview, hviews⟩ := foldlM_viewRange_ok plan.ranges hempty hinside hplan.nodup
  rw [List.nil_append] at hviews
  obtain ⟨r, rest, hranges, hzero, hlong⟩ := hplan.first
  have hfirst : firstRange (plan.ranges.map fun r => slice bytes r.offset (r.offset + r.length)) =
      .ok (slice bytes 0 r.length) := by
    rw [hranges, List.map_cons, hzero, Nat.zero_add]
    rfl
  have hlenFirst : (slice bytes 0 r.length).length = r.length := by
    have := hinside r (by rw [hranges]; exact List.mem_cons_self ..)
    rw [length_slice (by omega)]
    omega
  have hparse : parsePrefix (slice bytes 0 r.length) ref.plaintextLength crypto.kdf.size =
      .ok (headerOf ref.plaintextLength crypto l bytes) := by
    refine parsePrefix_ok hl (by omega) ?_
    rw [slice_slice bytes (by omega), Nat.zero_add, Nat.zero_add]
  have hroot : verifyRoot cek ref.objectId (headerOf ref.plaintextLength crypto l bytes) ref.snapshot
      crypto = .ok state := by
    have hcheck : checkRoot state (headerOf ref.plaintextLength crypto l bytes) ref.snapshot =
        .ok () := checkRoot_eq_ok.mpr ⟨hv.root, hv.stored⟩
    unfold verifyRoot openCommitment
    simp only [headerOf] at hcheck ⊢
    rw [hopened, ok_bind, hcheck]
    rfl
  -- The epochs of the slice are copied and verify, and its blocks open.
  have hsegs : plan.segFirst ≤ plan.segLast := by
    have hpos := hplan.pos
    have hstart := hplan.start
    rw [hplan.segFirst, hplan.segLast]
    exact Nat.div_le_div_right (by omega)
  have hepochs : plan.segFirst / perEpoch ≤ plan.segLast / perEpoch := Nat.div_le_div_right hsegs
  have hlast : plan.segLast / perEpoch < l.nEp := by
    obtain ⟨hlt, -⟩ := hplan.blocks plan.segLast hsegs le_rfl
    exact (hfacts.ep _).mpr (lt_of_le_of_lt (Nat.div_mul_le_self _ _) hlt)
  obtain ⟨metadata, hmetadata, hcopied⟩ := foldlM_copyEpochRun_ok hfacts hv.length hepochs hlast
    hviews hplan.runs
  have hverify : (upTo (plan.segFirst / perEpoch) (plan.segLast / perEpoch)).mapM
      (verifyEpochRun (fetchedContext ref.plaintextLength crypto l state bytes metadata)) =
        .ok ((upTo (plan.segFirst / perEpoch) (plan.segLast / perEpoch)).map fun _ => ()) := by
    refine mapM_eq_ok fun e he => ?_
    obtain ⟨hfirst, hle⟩ := mem_upTo.mp he
    exact hcopied.verifyEpochRun hfacts hcrypto hfirst (by omega) (by omega)
      (hv.heads e (by omega))
  have hopen : (upTo plan.segFirst plan.segLast).mapM
      (openFetchedBlock (fetchedContext ref.plaintextLength crypto l state bytes metadata) view) =
        .ok ((upTo plan.segFirst plan.segLast).map part) := by
    refine mapM_eq_ok fun i hi => ?_
    obtain ⟨hfirst, hle⟩ := mem_upTo.mp hi
    obtain ⟨hlt, hfetched⟩ := hplan.blocks i hfirst hle
    exact openFetchedBlock_ok hfacts hcopied (Nat.div_le_div_right hfirst)
      (Nat.lt_succ_of_le (Nat.div_le_div_right hle)) hlt hviews hfetched (hparts i hlt).1
  obtain ⟨hlastSeg, -⟩ := hplan.blocks plan.segLast hsegs le_rfl
  have hslice := slice_of_segments hplan (fun i hi => (hparts i hi).2) hlastSeg hsegs
  have hzip : plan.ranges.zip (plan.ranges.map fun r => slice bytes r.offset (r.offset + r.length)) =
      plan.ranges.map fun r => (r, slice bytes r.offset (r.offset + r.length)) := by
    simpa using List.zip_map' (f := id) (l := plan.ranges)
      (g := fun r => slice bytes r.offset (r.offset + r.length))
  have hgap := hviews.checkGap hplan.gap hv.gap
  unfold startRange
  rw [if_neg (not_not.mpr hlen), mapM_drainStream_ok hserved, ok_bind, hzip, hview, ok_bind, hgap,
    ok_bind, hfirst, ok_bind]
  change (parsePrefix (slice bytes 0 r.length) ref.plaintextLength crypto.kdf.size >>= _) = _
  rw [hparse, ok_bind, hroot, ok_bind]
  change ((upTo (plan.segFirst / perEpoch) (plan.segLast / perEpoch)).foldlM
    (copyEpochRun l crypto.kdf.size view) _ >>= _) = _
  rw [hmetadata, ok_bind]
  change ((upTo (plan.segFirst / perEpoch) (plan.segLast / perEpoch)).mapM
    (verifyEpochRun (fetchedContext ref.plaintextLength crypto l state bytes metadata)) >>= fun _ =>
      (upTo plan.segFirst plan.segLast).mapM (openFetchedBlock
        (fetchedContext ref.plaintextLength crypto l state bytes metadata) view) >>= _) = _
  rw [hverify, ok_bind, hopen, ok_bind]
  exact congrArg Except.ok hslice

/-- A range that lies in the plaintext is planned, and served with the object's bytes
it yields the slice. -/
theorem decryptRangeStream_ok (h : Readable cek ref crypto)
    (haead : crypto.aead.Shrinks crypto.tagLength)
    (hopen : openObject cek ref.objectId bytes ref.object crypto = .ok plaintext)
    (hstart : 0 ≤ range.offset) (hpos : 0 < range.length)
    (hstop : range.offset + range.length ≤ ref.plaintextLength) :
    ∃ plan, openAttachmentRange cek ref range crypto = .ok plan ∧
      ∀ streams, Served bytes plan.ranges streams →
        ∃ emitted, decryptRangeStream cek ref range plan streams crypto =
            .ok ⟨emitted, .ok ()⟩ ∧
          concatAll emitted =
            slice plaintext range.offset.toNat (range.offset + range.length).toNat := by
  obtain ⟨l, state, part, hl, hopened, hv, hparts, rfl⟩ := segments_of_openObject haead hopen
  obtain ⟨plan, hplan⟩ := openAttachmentRange_ok h hl hstart hpos hstop
  have hfacts : PlanFacts (layoutParams ref.plaintextLength crypto) l range plan := by
    refine rangesFor_eq_ok rfl rfl hl ?_
    have hok := hplan
    unfold openAttachmentRange at hok
    rw [h.valid, ok_bind, assertCekLength_ok h.cek, ok_bind] at hok
    split_ifs at hok
    exact hok
  refine ⟨plan, hplan, fun streams hserved => ?_⟩
  have hstarted := startRange_ok hl hopened hv hparts hfacts hserved
  unfold decryptRangeStream
  simp only [hl, ok_bind, hstarted]
  split_ifs with hlen
  · exact ⟨_, rfl, by simp [concatAll]⟩
  · refine ⟨[], rfl, ?_⟩
    have hnil := List.length_eq_zero_iff.mp (Nat.eq_zero_of_not_pos hlen)
    rw [hnil]
    rfl

/-- The three readers agree: a stream ends with what the whole object opens to, or it
fails behind an initial run of verified segments; and a range of at least one byte of
an object that opens yields the slice of what it opens to. -/
theorem attachment_readers_agree (cek : Bytes) (ref : AttachmentRef) (crypto : SealCrypto)
    (h : Readable cek ref crypto) :
    (∀ chunks plaintext, (∃ parts, decryptAttachmentStream cek ref chunks crypto =
        .ok ⟨parts, .ok ()⟩ ∧ concatAll parts = plaintext) ↔
      openObject cek ref.objectId chunks.flatten ref.object crypto = .ok plaintext) ∧
    (∀ chunks, (∀ plaintext, openObject cek ref.objectId chunks.flatten ref.object crypto ≠
        .ok plaintext) →
      decryptAttachmentStream cek ref chunks crypto = .error attachmentError ∨
      ∃ emitted, decryptAttachmentStream cek ref chunks crypto =
          .ok ⟨emitted, .error attachmentError⟩ ∧
        InitialRun cek ref crypto chunks.flatten emitted) ∧
    (crypto.aead.Shrinks crypto.tagLength → ∀ bytes plaintext, ∀ range : RangeRequest,
      openObject cek ref.objectId bytes ref.object crypto = .ok plaintext →
      0 ≤ range.offset → 0 < range.length →
      range.offset + range.length ≤ ref.plaintextLength →
      ∃ plan, openAttachmentRange cek ref range crypto = .ok plan ∧
        ∀ streams, Served bytes plan.ranges streams →
          ∃ emitted, decryptRangeStream cek ref range plan streams crypto =
              .ok ⟨emitted, .ok ()⟩ ∧
            concatAll emitted =
              slice plaintext range.offset.toNat (range.offset + range.length).toNat) := by
  refine ⟨fun chunks plaintext => decryptAttachmentStream_eq_ok h, fun chunks hfails => ?_,
    fun haead bytes plaintext range => decryptRangeStream_ok h haead⟩
  rcases decryptAttachmentStream_initialRun chunks h with
    herror | ⟨emitted, ended, heq, rfl | rfl, hrun⟩
  · exact .inl herror
  · exact absurd (decryptAttachmentStream_eq_ok h |>.mp ⟨emitted, heq, rfl⟩) (hfails _)
  · exact .inr ⟨emitted, heq, hrun⟩

/-! ## One byte read -/

theorem plainAead_shrinks : plainSealCrypto.aead.Shrinks plainSealCrypto.tagLength := by
  intro key nonce aad sealed plaintext h
  simp only [plainSealCrypto, plainAead] at h ⊢
  split_ifs at h with hshort
  obtain rfl := Except.ok.inj h
  rw [List.length_take]
  omega

theorem length_snapshot {object : ObjectRef} {objectId : Bytes}
    (h : openObject cek objectId bytes object crypto = .ok plaintext) :
    object.snapshot.length = crypto.kdf.size := by
  obtain ⟨-, -, -, l, state, parts, hl, -, hv, -⟩ := openObject_eq_ok.mp h
  have hfacts := layout_eq_ok SEGMENT_MAX_pos hl
  have hoffset : l.epochHeadsOffset = 32 + 2 * crypto.kdf.size := hfacts.heads
  have hmeta := hfacts.metaOffset
  have hheader := hfacts.header
  have hgap := hfacts.gap
  have htotal := hfacts.total
  have hlen := hv.length
  rw [← hv.stored, length_slice (by omega)]
  omega

/-- One byte is sealed, and a reference to it is readable. -/
theorem exists_readable_byte : ∃ ref bytes, Readable (List.replicate 32 1) ref plainSealCrypto ∧
    ref.plaintextLength = 1 ∧
    openObject (List.replicate 32 1) ref.objectId bytes ref.object plainSealCrypto = .ok [7] := by
  obtain ⟨sealed, -, hopen⟩ : ∃ sealed, sealObject (List.replicate 32 1) [1] [7]
        (List.replicate 32 2) plainSealCrypto = .ok sealed ∧
      openObject (List.replicate 32 1) [1] sealed.bytes
        { snapshot := sealed.snapshot, plaintextLength := 1 } plainSealCrypto = .ok [7] :=
    openObject_sealObject plainSealCrypto_lawful rfl (by decide) (by decide) (by decide) rfl
  have hsnapshot : sealed.snapshot.length = plainSealCrypto.kdf.size := length_snapshot hopen
  let ref : AttachmentRef := {
    version := 1
    objectId := [1]
    plaintextLength := 1
    snapshot := sealed.snapshot
    locator := [] }
  have hsafe : (1 : ℤ) ≤ MAX_SAFE_INTEGER := by decide
  refine ⟨ref, sealed.bytes, ⟨rfl, ?_, hsafe⟩, rfl, hopen⟩
  simp only [validateAttachmentRef, ref, hsnapshot]
  decide

/-- No range of no bytes is planned, wherever it lies in the plaintext. -/
theorem openAttachmentRange_no_bytes : ∃ ref bytes,
    Readable (List.replicate 32 1) ref plainSealCrypto ∧
    openObject (List.replicate 32 1) ref.objectId bytes ref.object plainSealCrypto = .ok [7] ∧
    ref.plaintextLength = 1 ∧
    openAttachmentRange (List.replicate 32 1) ref { offset := 0, length := 0 } plainSealCrypto =
      .error attachmentError := by
  obtain ⟨ref, bytes, h, hlength, hopen⟩ := exists_readable_byte
  refine ⟨ref, bytes, h, hopen, hlength, ?_⟩
  unfold openAttachmentRange
  rw [h.valid, ok_bind, assertCekLength_ok h.cek, ok_bind, if_neg (by decide), hlength,
    if_neg (by decide)]
  rfl

/-- The byte is read in two chunks, the first of them empty, nothing is read from an
empty source, and the byte is a range of itself. -/
theorem attachment_readers_agree_one_byte : ∃ ref bytes,
    (∃ parts, decryptAttachmentStream (List.replicate 32 1) ref [[], bytes] plainSealCrypto =
      .ok ⟨parts, .ok ()⟩ ∧ concatAll parts = [7]) ∧
    (decryptAttachmentStream (List.replicate 32 1) ref [[]] plainSealCrypto =
        .error attachmentError ∨
      ∃ emitted, decryptAttachmentStream (List.replicate 32 1) ref [[]] plainSealCrypto =
          .ok ⟨emitted, .error attachmentError⟩ ∧
        InitialRun (List.replicate 32 1) ref plainSealCrypto [] emitted) ∧
    ∃ plan, openAttachmentRange (List.replicate 32 1) ref { offset := 0, length := 1 }
        plainSealCrypto = .ok plan ∧
      ∃ emitted, decryptRangeStream (List.replicate 32 1) ref { offset := 0, length := 1 } plan
        (plan.ranges.map fun r => [slice bytes r.offset (r.offset + r.length)]) plainSealCrypto =
          .ok ⟨emitted, .ok ()⟩ ∧ concatAll emitted = [7] := by
  obtain ⟨ref, bytes, h, hlength, hopen⟩ := exists_readable_byte
  obtain ⟨hstream, hfails, hrange⟩ := attachment_readers_agree _ _ _ h
  refine ⟨ref, bytes, (hstream _ _).mpr (by simpa using hopen), hfails [[]] fun plaintext hok => ?_,
    ?_⟩
  · obtain ⟨-, -, -, l, state, parts, hl, -, hv, -⟩ := openObject_eq_ok.mp hok
    have htotal : l.totalSize = l.firstBlockOffset + ref.plaintextLength.toNat :=
      (layout_eq_ok SEGMENT_MAX_pos hl).total
    have hlen := hv.length
    simp only [List.flatten_cons, List.flatten_nil, List.append_nil, List.length_nil] at hlen
    omega
  · obtain ⟨plan, hplan, hserve⟩ := hrange plainAead_shrinks bytes [7] { offset := 0, length := 1 }
      hopen le_rfl (by decide) (by simp [hlength])
    obtain ⟨emitted, hemitted, hslice⟩ :=
      hserve (plan.ranges.map fun r => [slice bytes r.offset (r.offset + r.length)]) (by simp [Served])
    exact ⟨plan, hplan, emitted, hemitted, hslice⟩

end WebcryptoMls
