import WebcryptoMls.Slices

/-!
# Chunk queues

A source delivers a sequence in chunks, and a reader keeps a queue of the chunks it
has read and not used up. However the sequence is cut, and wherever a chunk is
empty, the reader takes the next slice of the whole sequence.
-/
namespace ChunkQueue
open Slices

structure Queue (α : Type) where
  source : List (List α)
  buffer : List (List α)
  bufferedBytes : ℕ

namespace Queue

variable {α : Type}

def ofSource (source : List (List α)) : Queue α := ⟨source, [], 0⟩

/-- Reads chunks until so many elements are queued. -/
def fillFrom (n : ℕ) : List (List α) → List (List α) → ℕ → Option (Queue α)
  | source, buffer, bufferedBytes =>
    if bufferedBytes ≥ n then some ⟨source, buffer, bufferedBytes⟩
    else
      match source with
      | [] => none
      | chunk :: source => fillFrom n source (buffer ++ [chunk]) (bufferedBytes + chunk.length)

def fill (n : ℕ) (q : Queue α) : Option (Queue α) := fillFrom n q.source q.buffer q.bufferedBytes

/-- Takes so many elements from the front, a piece of each chunk at a time. A piece
that fails the check ends it. -/
def takeFront (check : List α → Bool) : List (List α) → ℕ → Option (List α × List (List α))
  | buffer, 0 => some ([], buffer)
  | [], _ + 1 => none
  | first :: rest, n + 1 =>
    let take := min first.length (n + 1)
    if !check (first.take take) then none
    else if take ≥ first.length then
      (takeFront check rest (n + 1 - take)).map fun r => (first.take take ++ r.1, r.2)
    else some (first.take take, first.drop take :: rest)

/-- The next so many elements. -/
def take (check : List α → Bool) (n : ℕ) (q : Queue α) : Option (List α × Queue α) := do
  let q ← q.fill n
  let (x, buffer) ← takeFront check q.buffer n
  pure (x, { q with buffer := buffer, bufferedBytes := q.bufferedBytes - n })

/-- Reads on until there is anything beyond what is used up. -/
def extraFrom : ℕ → List (List α) → ℕ
  | 0, chunk :: source => extraFrom chunk.length source
  | extra, _ => extra

def extra (q : Queue α) : ℕ := extraFrom q.bufferedBytes q.source

/-- The queue stands at a position of the sequence. -/
structure At (q : Queue α) (l : List α) (pos : ℕ) : Prop where
  counted : q.bufferedBytes = q.buffer.flatten.length
  le : pos ≤ l.length
  rest : q.buffer.flatten ++ q.source.flatten = l.drop pos

theorem at_ofSource (source : List (List α)) : (ofSource source).At source.flatten 0 :=
  ⟨rfl, Nat.zero_le _, by simp [ofSource]⟩

theorem fillFrom_spec (n : ℕ) (source buffer : List (List α)) :
    if n ≤ buffer.flatten.length + source.flatten.length then
      ∃ q : Queue α, fillFrom n source buffer buffer.flatten.length = some q ∧
        q.bufferedBytes = q.buffer.flatten.length ∧ n ≤ q.buffer.flatten.length ∧
        q.buffer.flatten ++ q.source.flatten = buffer.flatten ++ source.flatten
    else fillFrom n source buffer buffer.flatten.length = none := by
  induction source generalizing buffer with
  | nil =>
    unfold fillFrom
    split_ifs <;> simp_all [-List.length_flatten]
  | cons chunk source ih =>
    unfold fillFrom
    by_cases hn : buffer.flatten.length ≥ n
    · rw [if_pos hn, if_pos (by omega)]
      exact ⟨_, rfl, rfl, hn, rfl⟩
    · rw [if_neg hn]
      simpa [Nat.add_assoc] using ih (buffer ++ [chunk])

theorem takeFront_spec (p : α → Bool) (buffer : List (List α)) {n : ℕ}
    (hn : n ≤ buffer.flatten.length) :
    if (buffer.flatten.take n).all p then
      ∃ rest, takeFront (List.all · p) buffer n = some (buffer.flatten.take n, rest) ∧
        rest.flatten = buffer.flatten.drop n
    else takeFront (List.all · p) buffer n = none := by
  induction buffer generalizing n with
  | nil =>
    obtain rfl : n = 0 := by simpa using hn
    simp [takeFront]
  | cons first rest ih =>
    cases n with
    | zero => simp [takeFront]
    | succ n =>
      unfold takeFront
      by_cases hlong : first.length ≤ n + 1
      · -- The whole chunk, and the rest of the elements behind it.
        have hrest : n + 1 - first.length ≤ rest.flatten.length := by
          simp only [List.flatten_cons, List.length_append] at hn
          omega
        have := ih hrest
        simp only [List.flatten_cons, List.take_append, List.drop_append, min_eq_left hlong,
          List.take_length, List.take_of_length_le hlong, List.drop_of_length_le hlong,
          List.all_append, ge_iff_le, le_refl, if_true, List.nil_append]
        cases hfirst : first.all p with
        | false => simp
        | true =>
          simp only [Bool.true_and, Bool.not_true, Bool.false_eq_true, if_false]
          split_ifs at this ⊢
          · obtain ⟨buffer, htake, hflat⟩ := this
            exact ⟨buffer, by simp [htake], hflat⟩
          · simp [this]
      · have hlt : n + 1 ≤ first.length := by omega
        simp only [List.flatten_cons, List.take_append_of_le_length hlt,
          List.drop_append_of_le_length hlt, min_eq_right hlt, ge_iff_le, hlong, if_false]
        cases hfirst : (first.take (n + 1)).all p <;> simp

/-- What is taken is the next slice, when there is enough and all of it passes. -/
theorem At.take {q : Queue α} {l : List α} {pos : ℕ} (h : q.At l pos) (p : α → Bool) (n : ℕ) :
    if pos + n ≤ l.length ∧ (slice l pos (pos + n)).all p then
      ∃ q', q.take (List.all · p) n = some (slice l pos (pos + n), q') ∧ q'.At l (pos + n)
    else q.take (List.all · p) n = none := by
  have hfill := fillFrom_spec n q.source q.buffer
  have hlen : q.buffer.flatten.length + q.source.flatten.length = l.length - pos := by
    rw [← List.length_append, h.rest, List.length_drop]
  have hle := h.le
  unfold Queue.take fill
  rw [h.counted]
  by_cases hn : pos + n ≤ l.length
  · rw [if_pos (by omega)] at hfill
    obtain ⟨q', hq', hcounted, hbuffered, hflat⟩ := hfill
    have hfront : q'.buffer.flatten.take n = slice l pos (pos + n) := by
      unfold slice
      rw [Nat.add_sub_cancel_left, ← h.rest, ← hflat, List.take_append_of_le_length hbuffered]
    have hspec := takeFront_spec p q'.buffer hbuffered
    rw [hfront] at hspec
    simp only [hn, true_and]
    split_ifs at hspec ⊢
    · obtain ⟨rest, htake, hrest⟩ := hspec
      refine ⟨_, by simp [-List.length_flatten, hq', htake]; rfl, ?_, hn, ?_⟩
      · simp [hrest, hcounted]
      · simp only [hrest]
        rw [← List.drop_append_of_le_length hbuffered, hflat, h.rest, List.drop_drop]
    · simp [-List.length_flatten, hq', hspec]
  · rw [if_neg (by omega)] at hfill
    simp [-List.length_flatten, hn, hfill]

theorem extraFrom_eq_zero (extra : ℕ) (source : List (List α)) :
    extraFrom extra source = 0 ↔ extra = 0 ∧ source.flatten = [] := by
  induction source generalizing extra with
  | nil => cases extra <;> simp [extraFrom]
  | cons chunk source ih => cases extra <;> simp [extraFrom, ih]

/-- Nothing is left exactly at the end. -/
theorem At.extra {q : Queue α} {l : List α} {pos : ℕ} (h : q.At l pos) :
    q.extra = 0 ↔ pos = l.length := by
  have hle := h.le
  have hlen : q.buffer.flatten.length + q.source.flatten.length = l.length - pos := by
    rw [← List.length_append, h.rest, List.length_drop]
  unfold Queue.extra
  rw [extraFrom_eq_zero, h.counted, ← List.length_eq_zero_iff (l := q.source.flatten)]
  omega

end Queue

end ChunkQueue
