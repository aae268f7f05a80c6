import Mathlib.Data.List.Basic

/-!
# Runs that differ in their checks

Two runs that can throw and that do the same but for some of their checks. Where the first
returns, the second returns the same on a condition, and on nothing less.
-/
namespace Transfers

universe u
variable {ε ι : Type*} {α β : Type u} {P Q : Prop}

/-- Where `x` returns, `y` returns, and the same, exactly if `P` holds. -/
def FollowsIf (P : Prop) (x y : Except ε α) : Prop :=
  ∀ a, x = .ok a → (P → y = .ok a) ∧ ∀ b, y = .ok b → P

namespace FollowsIf
variable {x y : Except ε α}

theorem refl (x : Except ε α) : FollowsIf True x x := fun _ h => ⟨fun _ => h, fun _ _ => trivial⟩

theorem of_iff (h : FollowsIf P x y) (hiff : P ↔ Q) : FollowsIf Q x y :=
  fun a ha => ⟨fun hq => (h a ha).1 (hiff.mpr hq), fun b hb => hiff.mp ((h a ha).2 b hb)⟩

theorem eq_ok {a : α} (h : FollowsIf P x y) (hx : x = .ok a) (hP : P) : y = .ok a := (h a hx).1 hP

theorem holds {a b : α} (h : FollowsIf P x y) (hx : x = .ok a) (hy : y = .ok b) : P := (h a hx).2 b hy

/-- What a run goes on with is what the other goes on with. -/
theorem bind {f g : α → Except ε β} (h : FollowsIf P x y)
    (hnext : ∀ a, x = .ok a → FollowsIf Q (f a) (g a)) :
    FollowsIf (P ∧ Q) (x >>= f) (y >>= g) := by
  intro b hb
  cases x with
  | error e => cases hb
  | ok a =>
    have hnext := hnext a rfl b hb
    constructor
    · rintro ⟨hP, hQ⟩
      rw [h.eq_ok rfl hP]
      exact hnext.1 hQ
    · intro c hc
      cases hy : y with
      | error e =>
        rw [hy] at hc
        cases hc
      | ok a' =>
        have hP := h.holds rfl hy
        obtain rfl := Except.ok.inj (hy.symm.trans (h.eq_ok rfl hP))
        rw [hy] at hc
        exact ⟨hP, hnext.2 c hc⟩

/-- Each round is of a state that the rounds before it lead to. -/
theorem foldlM {f g : β → ι → Except ε β} {P : ι → Prop} {l : List ι} {b : β}
    (h : ∀ before i after, l = before ++ i :: after → ∀ c, before.foldlM f b = .ok c →
      FollowsIf (P i) (f c i) (g c i)) :
    FollowsIf (∀ i ∈ l, P i) (l.foldlM f b) (l.foldlM g b) := by
  induction l generalizing b with
  | nil => exact (refl _).of_iff (by simp)
  | cons i l ih =>
    simp only [List.foldlM_cons, List.forall_mem_cons]
    refine (h [] i l rfl b rfl).bind fun c hc => ih fun before j after hl d hd => ?_
    refine h (i :: before) j after (by rw [hl, List.cons_append]) d ?_
    rw [List.foldlM_cons, hc]
    exact hd

end FollowsIf

end Transfers
