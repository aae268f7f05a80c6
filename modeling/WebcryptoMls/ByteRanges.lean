import WebcryptoMls.AttachmentLayout
import Mathlib.Order.CompletePartialOrder

/-!
# Byte ranges

Ranges as sets of positions. Ranges that follow each other without a space between
them have all positions from the first to the last, each of them once; and ranges
that are coalesced have the positions they had before.
-/
namespace WebcryptoMls

/-- The positions in a range. -/
def ByteRange.positions (r : ByteRange) : Set ℕ := Set.Ico r.offset (r.offset + r.length)

/-- The positions in some of the ranges. -/
def positionsOf (ranges : List ByteRange) : Set ℕ := {k | ∃ r ∈ ranges, k ∈ r.positions}

@[simp] theorem ByteRange.mem_positions {r : ByteRange} {k : ℕ} :
    k ∈ r.positions ↔ r.offset ≤ k ∧ k < r.offset + r.length := Iff.rfl

@[simp] theorem positionsOf_nil : positionsOf [] = ∅ := by
  ext
  simp [positionsOf]

@[simp] theorem positionsOf_cons (r : ByteRange) (ranges : List ByteRange) :
    positionsOf (r :: ranges) = r.positions ∪ positionsOf ranges := by
  ext
  simp [positionsOf]

@[simp] theorem positionsOf_append (ranges ranges' : List ByteRange) :
    positionsOf (ranges ++ ranges') = positionsOf ranges ∪ positionsOf ranges' := by
  ext
  simp [positionsOf, or_and_right, exists_or]

/-! ## Contiguous ranges -/

/-- Each range starts where the one before it ends. -/
def Contiguous : ℕ → List ByteRange → ℕ → Prop
  | start, [], stop => start = stop
  | start, r :: ranges, stop => r.offset = start ∧ Contiguous (start + r.length) ranges stop

theorem contiguous_append {ranges ranges' : List ByteRange} {start stop : ℕ} :
    Contiguous start (ranges ++ ranges') stop ↔
      ∃ middle, Contiguous start ranges middle ∧ Contiguous middle ranges' stop := by
  induction ranges generalizing start with
  | nil => simp [Contiguous]
  | cons r ranges ih => simp [Contiguous, ih, and_assoc]

theorem Contiguous.add_sum {ranges : List ByteRange} {start stop : ℕ}
    (h : Contiguous start ranges stop) : start + (ranges.map ByteRange.length).sum = stop := by
  induction ranges generalizing start with
  | nil => simpa [Contiguous] using h
  | cons r ranges ih =>
    have hsum := ih h.2
    rw [List.map_cons, List.sum_cons]
    omega

theorem Contiguous.positionsOf_eq {ranges : List ByteRange} {start stop : ℕ}
    (h : Contiguous start ranges stop) : positionsOf ranges = Set.Ico start stop := by
  induction ranges generalizing start with
  | nil => simp [show start = stop from h]
  | cons r ranges ih =>
    have hle := h.2.add_sum
    ext k
    rw [positionsOf_cons, ih h.2, Set.mem_union, ByteRange.mem_positions, Set.mem_Ico, Set.mem_Ico,
      h.1]
    omega

theorem Contiguous.disjoint {ranges : List ByteRange} {start stop : ℕ}
    (h : Contiguous start ranges stop) :
    ranges.Pairwise fun r s => Disjoint r.positions s.positions := by
  induction ranges generalizing start with
  | nil => exact List.Pairwise.nil
  | cons r ranges ih =>
    refine List.pairwise_cons.mpr ⟨fun s hs => ?_, ih h.2⟩
    rw [Set.disjoint_left]
    intro k hr hk
    have hrest : k ∈ positionsOf ranges := ⟨s, hs, hk⟩
    rw [h.2.positionsOf_eq, Set.mem_Ico] at hrest
    rw [ByteRange.mem_positions, h.1] at hr
    omega

theorem Contiguous.le_stop {ranges : List ByteRange} {start stop : ℕ}
    (h : Contiguous start ranges stop) {r : ByteRange} (hr : r ∈ ranges) :
    r.offset + r.length ≤ stop := by
  induction ranges generalizing start with
  | nil => simp at hr
  | cons s ranges ih =>
    have hle := h.2.add_sum
    rcases List.mem_cons.mp hr with rfl | hr
    · have := h.1
      omega
    · exact ih h.2 hr

/-- Between the values of a function that grows. -/
theorem contiguous_map_range {g : ℕ → ℕ} (hg : Monotone g) {f : ℕ → ByteRange} {start : ℕ} (n : ℕ)
    (hf : ∀ i < n, f i = { offset := start + g i, length := g (i + 1) - g i }) :
    Contiguous (start + g 0) ((List.range n).map f) (start + g n) := by
  induction n with
  | zero => simp [Contiguous]
  | succ n ih =>
    rw [List.range_succ, List.map_append, contiguous_append]
    refine ⟨start + g n, ih fun i hi => hf i (by omega), ?_⟩
    have hle : g n ≤ g (n + 1) := hg (Nat.le_succ n)
    simp only [List.map_cons, List.map_nil, Contiguous, hf n (Nat.lt_succ_self n)]
    exact ⟨trivial, by omega⟩

/-! ## Coalesced ranges -/

theorem positionsOf_coalesceOnto {seen out : List ByteRange} (h : Coalesced seen out)
    {r : ByteRange} (hr : ∀ x ∈ seen, x.offset ≤ r.offset) :
    positionsOf (coalesceOnto out r) = positionsOf out ∪ r.positions := by
  rcases List.eq_nil_or_concat out with rfl | ⟨init, last, rfl⟩
  · simp [coalesceOnto]
  · rw [List.concat_eq_append] at h ⊢
    obtain ⟨x, hx, hstart⟩ := h.starts last (by simp)
    have hle := hr x hx
    unfold coalesceOnto
    simp only [List.getLast?_concat, List.dropLast_concat]
    split_ifs with htouch
    · -- The last range starts before the new one, which it reaches.
      ext k
      simp only [positionsOf_append, positionsOf_cons, positionsOf_nil, Set.union_empty,
        Set.mem_union, ByteRange.mem_positions]
      rw [or_assoc]
      exact or_congr_right (by omega)
    · simp [Set.union_assoc]

theorem positionsOf_coalesce (ranges : List ByteRange) :
    positionsOf (coalesce ranges) = positionsOf ranges := by
  have hfold : ∀ sorted : List ByteRange, (sorted.Pairwise fun a b => a.offset ≤ b.offset) →
      positionsOf (sorted.foldl coalesceOnto []) = positionsOf sorted := by
    intro sorted
    induction sorted using List.reverseRecOn with
    | nil => simp
    | append_singleton seen r ih =>
      intro hsorted
      obtain ⟨hseen, -, hr⟩ := List.pairwise_append.mp hsorted
      rw [List.foldl_append, List.foldl_cons, List.foldl_nil,
        positionsOf_coalesceOnto (coalesced_foldl seen hseen) fun x hx => hr x hx r (by simp),
        ih hseen]
      simp
  rw [coalesce, hfold _ (List.pairwise_insertionSort ..)]
  ext k
  simp [positionsOf]

theorem Coalesced.length_pos {seen out : List ByteRange} (h : Coalesced seen out)
    (hseen : ∀ r ∈ seen, 0 < r.length) {r : ByteRange} (hr : r ∈ out) : 0 < r.length := by
  obtain ⟨x, hx, hstart⟩ := h.starts r hr
  obtain ⟨s, hs, hle, hge⟩ := h.covers x hx
  have hpos := hseen x hx
  -- The range around one of the same start is the range itself.
  by_cases heq : s = r
  · subst heq
    omega
  · have hsymm : Std.Symm fun a b : ByteRange =>
        a.offset + a.length < b.offset ∨ b.offset + b.length < a.offset := ⟨fun _ _ => Or.symm⟩
    have hapart : out.Pairwise fun a b : ByteRange =>
        a.offset + a.length < b.offset ∨ b.offset + b.length < a.offset := h.apart.imp Or.inl
    have := hapart.forall hs hr heq
    omega

end WebcryptoMls
