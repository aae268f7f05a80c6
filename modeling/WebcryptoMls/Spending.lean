import Mathlib.Data.List.Nodup
import Mathlib.Data.Set.Basic

/-!
# Spending

A supply of items is spent one by one: an item leaves the supply when it is
spent, other items may be lost, and none is added. However the supply is kept, no
item is spent twice.
-/
namespace Spending

variable {α : Type}

/-- From one supply to another by spending some items in order. -/
inductive Spends (supply : Set α) : List α → Set α → Prop
  | refl : Spends supply [] supply
  | spend {items : List α} {rest rest' : Set α} {item : α} (h : Spends supply items rest)
      (mem : item ∈ rest) (sub : rest' ⊆ rest \ {item}) : Spends supply (items ++ [item]) rest'
  | lose {items : List α} {rest rest' : Set α} (h : Spends supply items rest)
      (sub : rest' ⊆ rest) : Spends supply items rest'

variable {supply rest : Set α} {items : List α}

/-- What is left was there at first and has not been spent. -/
theorem Spends.rest_subset (h : Spends supply items rest) :
    rest ⊆ supply ∧ ∀ item ∈ items, item ∉ rest := by
  induction h with
  | refl => exact ⟨fun _ ha => ha, by simp⟩
  | spend h mem sub ih =>
    refine ⟨fun a ha => ih.1 (sub ha).1, fun a ha hr => ?_⟩
    rcases List.mem_append.mp ha with hold | hnew
    · exact ih.2 a hold (sub hr).1
    · exact (sub hr).2 (List.mem_singleton.mp hnew)
  | lose h sub ih => exact ⟨fun a ha => ih.1 (sub ha), fun a ha hr => ih.2 a ha (sub hr)⟩

theorem Spends.nodup (h : Spends supply items rest) : items.Nodup := by
  induction h with
  | refl => exact List.nodup_nil
  | spend h mem sub ih =>
    rw [List.nodup_append]
    refine ⟨ih, List.nodup_singleton _, fun a ha b hb hab => ?_⟩
    rw [List.mem_singleton.mp hb] at hab
    exact h.rest_subset.2 a ha (hab ▸ mem)
  | lose h sub ih => exact ih

end Spending
