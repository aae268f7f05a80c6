import Mathlib.Data.Finset.Card
import Mathlib.Data.Finset.Range
import Mathlib.Data.Set.Function

/-!
# Filling the first free place

A row of places, each free or with a value. A value that is put down goes to the first
free place, so whether a place is still free after some values is a matter of how many
places before it were.
-/
namespace FirstFree

variable {α : Type*} {f g h : ℕ → Option α} {a : α} {l : List α} {i r : ℕ}

/-- `g` is `f` with the value in the first free place. -/
def Fills (f : ℕ → Option α) (a : α) (g : ℕ → Option α) : Prop :=
  ∃ i, f i = none ∧ (∀ j < i, f j ≠ none) ∧ g = Function.update f i (some a)

/-- One value after the other. -/
inductive FillsAll : (ℕ → Option α) → List α → (ℕ → Option α) → Prop
  | nil (f : ℕ → Option α) : FillsAll f [] f
  | cons {f g h : ℕ → Option α} {a : α} {l : List α} (first : Fills f a g)
      (later : FillsAll g l h) : FillsAll f (a :: l) h

/-- How many places before `r` are free. -/
def freeBelow (f : ℕ → Option α) (r : ℕ) : ℕ := ((Finset.range r).filter fun i => (f i).isNone).card

theorem Fills.keeps (hf : Fills f a g) (hi : f i ≠ none) : g i = f i := by
  obtain ⟨k, hk, -, rfl⟩ := hf
  have hne : i ≠ k := fun heq => hi (heq ▸ hk)
  exact Function.update_of_ne hne _ _

theorem FillsAll.keeps (hf : FillsAll f l g) (hi : f i ≠ none) : g i = f i := by
  induction hf with
  | nil f => rfl
  | cons first _ ih =>
    have heq := first.keeps hi
    rw [ih (heq ▸ hi), heq]

/-- Every value that was put down stands in a place that was free. -/
theorem FillsAll.exists_place (hf : FillsAll f l g) (ha : a ∈ l) : ∃ i, f i = none ∧ g i = some a := by
  induction hf with
  | nil f => simp at ha
  | @cons f g h b l first later ih =>
    rcases List.mem_cons.mp ha with rfl | ha
    · obtain ⟨k, hk, -, rfl⟩ := first
      have hself : Function.update f k (some a) k = some a := Function.update_self ..
      exact ⟨k, hk, by rw [later.keeps (by simp), hself]⟩
    · obtain ⟨i, hi, hval⟩ := ih ha
      refine ⟨i, ?_, hval⟩
      by_contra hne
      rw [first.keeps hne] at hi
      exact hne hi

/-- What stands in a place was there before or was put down. -/
theorem FillsAll.value (hf : FillsAll f l g) (hi : g i = some a) :
    f i = some a ∨ f i = none ∧ a ∈ l := by
  induction hf with
  | nil f => exact .inl hi
  | @cons f g h b l first _ ih =>
    obtain ⟨k, hk, -, rfl⟩ := first
    by_cases hik : i = k
    · subst hik
      rcases ih hi with heq | ⟨hnone, -⟩
      · rw [Function.update_self, Option.some.injEq] at heq
        exact .inr ⟨hk, heq ▸ List.mem_cons_self⟩
      · simp at hnone
    · rw [Function.update_of_ne hik] at ih
      exact (ih hi).imp_right (And.imp_right (List.mem_cons_of_mem b))

/-- Filling a place before `r` leaves one free place less before it. -/
theorem freeBelow_update (hi : f i = none) (hir : i < r) :
    freeBelow f r = freeBelow (Function.update f i (some a)) r + 1 := by
  have hmem : i ∈ (Finset.range r).filter fun j => (f j).isNone := by simp [hi, hir]
  have herase : ((Finset.range r).filter fun j => (Function.update f i (some a) j).isNone) =
      ((Finset.range r).filter fun j => (f j).isNone).erase i := by
    ext j
    by_cases hj : j = i
    · simp [hj]
    · simp [hj]
  rw [freeBelow, freeBelow, herase, Finset.card_erase_add_one hmem]

/-- A free place stays free exactly when no more values are put down than places before
it are free. -/
theorem FillsAll.free_iff (hf : FillsAll f l g) (hr : f r = none) :
    g r = none ↔ l.length ≤ freeBelow f r := by
  induction hf with
  | nil f => simp [hr]
  | @cons f g h a l first later ih =>
    obtain ⟨k, hk, hbefore, rfl⟩ := first
    rcases Nat.lt_trichotomy k r with hkr | rfl | hkr
    · rw [ih (by rw [Function.update_of_ne (by omega)]; exact hr), freeBelow_update hk hkr,
        List.length_cons, Nat.add_le_add_iff_right]
    · have hzero : freeBelow f k = 0 := by
        simp only [freeBelow, Finset.card_eq_zero, Finset.filter_eq_empty_iff, Finset.mem_range]
        intro j hj
        simpa using hbefore j hj
      have hkept := later.keeps (i := k) (by simp)
      simp [hkept, hzero]
    · exact absurd hr (hbefore r hkr)

end FirstFree
