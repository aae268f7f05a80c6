import Mathlib.Logic.Function.DependsOn

/-!
# What a run asks an oracle

A run that asks an oracle is a function of all the answers. It asks no more than some
queries if it depends on their answers only; what it asks can be read off its steps.
-/
namespace DependsOn

universe u
variable {Q A ε ι : Type*} {α β : Type u} {asked more : Set Q}

theorem map {run : (Q → A) → α} (h : DependsOn run asked) (f : α → β) :
    DependsOn (fun answers => f (run answers)) asked :=
  fun _ _ hagree => congrArg f (h hagree)

/-- A run, and what goes on from each of its results. -/
theorem bind {run : (Q → A) → Except ε α} {next : (Q → A) → α → Except ε β}
    (h : DependsOn run asked) (hnext : ∀ a, DependsOn (fun answers => next answers a) more) :
    DependsOn (fun answers => run answers >>= next answers) (asked ∪ more) := by
  intro answer other hagree
  have hrun : run answer = run other := h fun q hq => hagree q (.inl hq)
  simp only [hrun]
  cases run other with
  | error e => rfl
  | ok a => exact hnext a fun q hq => hagree q (.inr hq)

/-- A loop asks what its rounds ask. -/
theorem foldlM {step : (Q → A) → β → ι → Except ε β} {asked : ι → Set Q} {l : List ι} (b : β)
    (h : ∀ b, ∀ i ∈ l, DependsOn (fun answers => step answers b i) (asked i)) :
    DependsOn (fun answers => l.foldlM (step answers) b) {q | ∃ i ∈ l, q ∈ asked i} := by
  induction l generalizing b with
  | nil => exact fun _ _ _ => rfl
  | cons i l ih =>
    simp only [List.foldlM_cons]
    have hrest := fun b => ih b fun b j hj => h b j (List.mem_cons_of_mem _ hj)
    refine ((h b i List.mem_cons_self).bind hrest).mono ?_
    rintro q (hq | ⟨j, hj, hq⟩)
    · exact ⟨i, List.mem_cons_self, hq⟩
    · exact ⟨j, List.mem_cons_of_mem _ hj, hq⟩

/-- A run that depends on other answers than the ones left out asks for one of those. -/
theorem exists_asked {run : (Q → A) → α} {others : Set Q} (h : DependsOn run asked)
    (hdepends : ¬DependsOn run others) : ∃ q ∈ asked, q ∉ others := by
  by_contra hnone
  exact hdepends (h.mono fun q hq => by_contra fun hother => hnone ⟨q, hq, hother⟩)

end DependsOn
