import Mathlib.Data.List.Basic
import Mathlib.Tactic.Ring

/-!
# Slices

A slice of a list, from one position to another, and the overwriting of a slice.
Neighbouring slices glue together, so a list is known once the slices it is cut
into are, and what is overwritten changes no slice beside it.
-/
namespace Slices

variable {α : Type}

/-- The elements from a position on, up to another. -/
def slice (l : List α) (start stop : ℕ) : List α := (l.drop start).take (stop - start)

/-- The list with the elements from a position on replaced. -/
def overwrite (l x : List α) (offset : ℕ) : List α :=
  l.take offset ++ (x ++ l.drop (offset + x.length))

theorem getElem?_slice (l : List α) (start stop i : ℕ) :
    (slice l start stop)[i]? = if start + i < stop then l[start + i]? else none := by
  unfold slice
  rw [List.getElem?_take, List.getElem?_drop]
  by_cases h : i < stop - start
  · rw [if_pos h, if_pos (by omega)]
  · rw [if_neg h, if_neg (by omega)]

theorem length_slice {l : List α} {start stop : ℕ} (h : stop ≤ l.length) :
    (slice l start stop).length = stop - start := by
  unfold slice
  rw [List.length_take, List.length_drop]
  omega

theorem length_slice_le (l : List α) (start stop : ℕ) :
    (slice l start stop).length ≤ stop - start := by
  unfold slice
  rw [List.length_take]
  exact min_le_left ..

@[simp] theorem slice_all (l : List α) : slice l 0 l.length = l := by
  simp [slice]

theorem slice_min_length (l : List α) (start stop : ℕ) :
    slice l start (min stop l.length) = slice l start stop := by
  apply List.ext_getElem?
  intro i
  rw [getElem?_slice, getElem?_slice]
  by_cases hi : start + i < l.length
  · simp only [lt_min_iff, hi, and_true]
  · rw [List.getElem?_eq_none (by omega), ite_self, ite_self]

theorem slice_append_slice (l : List α) {start mid stop : ℕ} (h : start ≤ mid) (h' : mid ≤ stop) :
    slice l start mid ++ slice l mid stop = slice l start stop := by
  unfold slice
  rw [show stop - start = (mid - start) + (stop - mid) by omega, List.take_add, List.drop_drop,
    show start + (mid - start) = mid by omega]

theorem slice_slice (l : List α) {start stop start' stop' : ℕ} (h : start + stop' ≤ stop) :
    slice (slice l start stop) start' stop' = slice l (start + start') (start + stop') := by
  apply List.ext_getElem?
  intro i
  rw [getElem?_slice, getElem?_slice, getElem?_slice, Nat.add_assoc]
  by_cases hi : start' + i < stop'
  · rw [if_pos hi, if_pos (by omega), if_pos (by omega)]
  · rw [if_neg hi, if_neg (by omega)]

theorem length_overwrite {l x : List α} {offset : ℕ} (h : offset + x.length ≤ l.length) :
    (overwrite l x offset).length = l.length := by
  unfold overwrite
  rw [List.length_append, List.length_append, List.length_take, List.length_drop]
  omega

theorem slice_overwrite_self {l x : List α} {offset : ℕ} (h : offset ≤ l.length) :
    slice (overwrite l x offset) offset (offset + x.length) = x := by
  unfold slice overwrite
  have hlen : (l.take offset).length = offset := by
    rw [List.length_take]
    omega
  rw [List.drop_append_of_le_length (by omega), List.drop_eq_nil_of_le (by omega), List.nil_append,
    Nat.add_sub_cancel_left, List.take_left']
  rfl

theorem slice_overwrite_of_disjoint {l x : List α} {offset start stop : ℕ}
    (hle : offset + x.length ≤ l.length) (h : stop ≤ offset ∨ offset + x.length ≤ start) :
    slice (overwrite l x offset) start stop = slice l start stop := by
  have hlen : (l.take offset).length = offset := by
    rw [List.length_take]
    omega
  apply List.ext_getElem?
  intro i
  rw [getElem?_slice, getElem?_slice]
  by_cases hi : start + i < stop
  · rw [if_pos hi, if_pos hi]
    unfold overwrite
    rcases h with h | h
    · rw [List.getElem?_append_left (by omega), List.getElem?_take_of_lt (by omega)]
    · rw [List.getElem?_append_right (by omega), List.getElem?_append_right (by omega), hlen,
        List.getElem?_drop]
      congr 1
      omega
  · rw [if_neg hi, if_neg hi]

/-- The slices of one length from a position on, glued. -/
theorem flatten_slices (l : List α) (offset width count : ℕ) :
    ((List.range count).map fun i =>
        slice l (offset + i * width) (offset + (i + 1) * width)).flatten =
      slice l offset (offset + count * width) := by
  induction count with
  | zero => simp [slice]
  | succ count ih =>
    rw [List.range_succ, List.map_append, List.flatten_append, ih, List.map_singleton,
      List.flatten_singleton]
    apply slice_append_slice
    · omega
    · rw [Nat.succ_mul]
      omega

/-- Two lists agree on a stretch when they agree on the slices it is cut into. -/
theorem slice_eq_of_slices {l l' : List α} {offset width count : ℕ}
    (h : ∀ i < count, slice l (offset + i * width) (offset + (i + 1) * width) =
      slice l' (offset + i * width) (offset + (i + 1) * width)) :
    slice l offset (offset + count * width) = slice l' offset (offset + count * width) := by
  rw [← flatten_slices, ← flatten_slices]
  congr 1
  apply List.map_congr_left
  intro i hi
  exact h i (List.mem_range.mp hi)

theorem slice_append_left {l l' : List α} {start stop : ℕ} (h : stop ≤ l.length) :
    slice (l ++ l') start stop = slice l start stop := by
  apply List.ext_getElem?
  intro i
  rw [getElem?_slice, getElem?_slice]
  by_cases hi : start + i < stop
  · rw [if_pos hi, if_pos hi, List.getElem?_append_left (by omega)]
  · rw [if_neg hi, if_neg hi]

theorem slice_append_right (l l' : List α) :
    slice (l ++ l') l.length (l.length + l'.length) = l' := by
  unfold slice
  rw [List.drop_left, Nat.add_sub_cancel_left, List.take_length]

theorem length_flatten_range {g : ℕ → List α} {width count : ℕ}
    (h : ∀ i < count, (g i).length = width) :
    ((List.range count).map g).flatten.length = count * width := by
  induction count with
  | zero => simp
  | succ count ih =>
    rw [List.range_succ, List.map_append, List.flatten_append, List.length_append,
      ih fun i hi => h i (by omega), List.map_singleton, List.flatten_singleton,
      h count (by omega), Nat.succ_mul]

/-- A slice of lists of one length, glued, is one of them. -/
theorem slice_flatten_range {g : ℕ → List α} {width count : ℕ}
    (h : ∀ i < count, (g i).length = width) {i : ℕ} (hi : i < count) :
    slice ((List.range count).map g).flatten (i * width) ((i + 1) * width) = g i := by
  induction count with
  | zero => omega
  | succ count ih =>
    have hfirst : ∀ i < count, (g i).length = width := fun i hi => h i (by omega)
    have hlen := length_flatten_range hfirst
    rw [List.range_succ, List.map_append, List.flatten_append, List.map_singleton,
      List.flatten_singleton]
    by_cases hlast : i = count
    · subst hlast
      rw [Nat.succ_mul, ← hlen, ← h i hi, slice_append_right]
    · have hlt : i < count := by omega
      rw [slice_append_left (by rw [hlen]; exact Nat.mul_le_mul_right _ hlt), ih hfirst hlt]

/-- A buffer filled up from the front with a stretch of another list, filled on. -/
theorem slice_overwrite_next {l dst : List α} {base k n : ℕ} (hfit : k + n ≤ dst.length)
    (hle : base + k + n ≤ l.length) (h : slice dst 0 k = slice l base (base + k)) :
    slice (overwrite dst (slice l (base + k) (base + k + n)) k) 0 (k + n) =
      slice l base (base + (k + n)) := by
  have hlen : (slice l (base + k) (base + k + n)).length = n := by
    rw [length_slice hle]
    omega
  have hself := slice_overwrite_self (x := slice l (base + k) (base + k + n))
    (show k ≤ dst.length by omega)
  rw [hlen] at hself
  rw [← slice_append_slice _ (Nat.zero_le k) (Nat.le_add_right k n),
    slice_overwrite_of_disjoint (by omega) (.inl le_rfl), h, hself,
    slice_append_slice l (by omega) (by omega), Nat.add_assoc]

/-- Lists that agree on a stretch agree on every slice of it. -/
theorem slice_of_agree {l l' : List α} {n start stop : ℕ} (h : slice l 0 n = slice l' 0 n)
    (hle : stop ≤ n) : slice l start stop = slice l' start stop := by
  have hslice : ∀ l : List α, slice l start stop = slice (slice l 0 n) start stop := by
    intro l
    rw [slice_slice l (by omega), Nat.zero_add, Nat.zero_add]
  rw [hslice l, hslice l', h]

theorem drop_slice (l : List α) (start stop n : ℕ) :
    (slice l start stop).drop n = slice l (start + n) stop := by
  unfold slice
  rw [List.drop_take, List.drop_drop, Nat.sub_sub]

/-- Lists of one length, glued, but for a last one that reaches to a total. -/
theorem length_flatten_upTo {g : ℕ → List α} {width total count : ℕ}
    (h : ∀ i < count, (g i).length = min width (total - i * width)) :
    ((List.range count).map g).flatten.length = min (count * width) total := by
  induction count with
  | zero => simp
  | succ count ih =>
    rw [List.range_succ, List.map_append, List.flatten_append, List.length_append,
      ih fun i hi => h i (by omega), List.map_singleton, List.flatten_singleton,
      h count (by omega), Nat.succ_mul]
    omega

/-- Some of them in a row are a slice of all. -/
theorem flatten_range'_eq_slice {g : ℕ → List α} {width total count first n : ℕ}
    (h : ∀ i < count, (g i).length = min width (total - i * width)) (hle : first + n ≤ count) :
    ((List.range' first n).map g).flatten = slice ((List.range count).map g).flatten
      (min (first * width) total) (min ((first + n) * width) total) := by
  have hlength : ∀ k ≤ count, ((List.range k).map g).flatten.length = min (k * width) total :=
    fun k hk => length_flatten_upTo fun i hi => h i (by omega)
  have hfirst := hlength first (by omega)
  have hupTo := hlength (first + n) hle
  have hsplit : List.range (first + n) = List.range first ++ List.range' first n := by
    rw [List.range_eq_range', List.range_eq_range', ← List.range'_append_1, Nat.zero_add]
  have hall : List.range count = List.range (first + n) ++ (List.range count).drop (first + n) := by
    conv_lhs => rw [← List.take_append_drop (first + n) (List.range count)]
    rw [List.take_range, min_eq_left hle]
  rw [hall, List.map_append, List.flatten_append, slice_append_left hupTo.ge, ← hfirst, ← hupTo,
    hsplit, List.map_append, List.flatten_append, List.length_append, slice_append_right]

end Slices
