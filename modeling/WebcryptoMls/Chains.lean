import Mathlib.Tactic
import Mathlib.Logic.Relation

/-!
# Chains and grounded lists

Two facts about relations on any type. Walks along a function that climbs, from
distinct starts, meet every node exactly once when every node has exactly one
predecessor. And in a list where each element only uses elements that were put
in before it, no two elements use each other.
-/
namespace Chains

variable {α : Type} {next : α → Option α}

/-- The nodes a walk along `next` comes to, for at most `fuel` steps. -/
def chain (next : α → Option α) : ℕ → α → List α
  | 0, _ => []
  | fuel + 1, a => match next a with
    | none => []
    | some b => b :: chain next fuel b

/-- `b` comes after `a` on the walk. -/
abbrev After (next : α → Option α) : α → α → Prop :=
  Relation.TransGen fun a b => next a = some b

theorem after_of_mem_chain {fuel : ℕ} {a b : α} (h : b ∈ chain next fuel a) : After next a b := by
  induction fuel generalizing a with
  | zero => simp [chain] at h
  | succ fuel ih =>
    rw [chain] at h
    cases hn : next a with
    | none => simp [hn] at h
    | some c =>
      simp only [hn, List.mem_cons] at h
      rcases h with rfl | h
      · exact .single hn
      · exact (ih h).head hn

section
variable {rank : α → ℕ} (hrank : ∀ a b, next a = some b → rank a < rank b)
include hrank

theorem After.rank_lt {a b : α} (h : After next a b) : rank a < rank b := by
  induction h with
  | single h => exact hrank _ _ h
  | tail _ h ih => exact ih.trans (hrank _ _ h)

theorem mem_chain {a b : α} (h : After next a b) {fuel : ℕ} (hf : rank b ≤ rank a + fuel) :
    b ∈ chain next fuel a := by
  induction h using Relation.TransGen.head_induction_on generalizing fuel with
  | @single a h =>
    have hlt := hrank _ _ h
    obtain ⟨fuel, rfl⟩ := Nat.exists_eq_succ_of_ne_zero (show fuel ≠ 0 by omega)
    simp [chain, h]
  | @head a c h hcb ih =>
    have hac := hrank _ _ h
    have hlt := After.rank_lt hrank hcb
    obtain ⟨fuel, rfl⟩ := Nat.exists_eq_succ_of_ne_zero (show fuel ≠ 0 by omega)
    rw [chain, h]
    exact List.mem_cons_of_mem _ (ih (by omega))

theorem nodup_chain (fuel : ℕ) (a : α) : (chain next fuel a).Nodup := by
  induction fuel generalizing a with
  | zero => exact List.nodup_nil
  | succ fuel ih =>
    rw [chain]
    cases next a with
    | none => exact List.nodup_nil
    | some b =>
      refine List.nodup_cons.mpr ⟨fun hb => ?_, ih b⟩
      exact absurd (After.rank_lt hrank (after_of_mem_chain hb)) (lt_irrefl _)

/-- Every node is on the walk from some start. -/
theorem exists_start {good : α → Prop} {starts : List α}
    (hpred : ∀ b, good b → b ∉ starts → ∃ a, good a ∧ next a = some b) {b : α} (hb : good b)
    (hbs : b ∉ starts) : ∃ s ∈ starts, After next s b := by
  obtain ⟨n, hn⟩ : ∃ n, rank b = n := ⟨_, rfl⟩
  induction n using Nat.strong_induction_on generalizing b with
  | h n ih =>
    obtain ⟨a, ha, hab⟩ := hpred b hb hbs
    by_cases has : a ∈ starts
    · exact ⟨a, has, .single hab⟩
    · obtain ⟨s, hs, hsa⟩ := ih (rank a) (hn ▸ hrank a b hab) ha has rfl
      exact ⟨s, hs, hsa.tail hab⟩

omit hrank in
/-- And of no other, where predecessors are unique and starts have none. -/
theorem start_unique {starts : List α}
    (huniq : ∀ a a' b, next a = some b → next a' = some b → a = a')
    (hstart : ∀ s ∈ starts, ∀ a, next a ≠ some s) {s s' b : α} (hs : s ∈ starts)
    (hs' : s' ∈ starts) (h : After next s b) (h' : After next s' b) : s = s' := by
  induction h with
  | single h =>
    rcases Relation.TransGen.tail'_iff.mp h' with ⟨c, hc, hcb⟩
    obtain rfl := huniq _ _ _ h hcb
    rcases Relation.reflTransGen_iff_eq_or_transGen.mp hc with rfl | hc
    · rfl
    · obtain ⟨e, -, he⟩ := Relation.TransGen.tail'_iff.mp hc
      exact absurd he (hstart _ hs e)
  | tail hsa h ih =>
    rcases Relation.TransGen.tail'_iff.mp h' with ⟨c, hc, hcb⟩
    obtain rfl := huniq _ _ _ h hcb
    rcases Relation.reflTransGen_iff_eq_or_transGen.mp hc with rfl | hc
    · obtain ⟨e, -, he⟩ := Relation.TransGen.tail'_iff.mp hsa
      exact absurd he (hstart _ hs' e)
    · exact ih hc

omit hrank in
theorem sum_map_eq_of_unique {f : α → ℕ} {l : List α} {s : α} (hnodup : l.Nodup) (hs : s ∈ l)
    (hother : ∀ a, a ≠ s → a ∈ l → f a = 0) : (l.map f).sum = f s := by
  classical
  rw [List.sum_map_eq_nsmul_single s _ hother, List.count_eq_one_of_mem hnodup hs, one_smul]

/-- The walks from all starts together meet a node exactly once. -/
theorem sum_count_chain [BEq α] [LawfulBEq α] (good : α → Prop) {starts : List α} {fuel : ℕ}
    (hpred : ∀ b, good b → b ∉ starts → ∃ a, good a ∧ next a = some b)
    (huniq : ∀ a a' b, next a = some b → next a' = some b → a = a')
    (hstart : ∀ s ∈ starts, ∀ a, next a ≠ some s) (hnodup : starts.Nodup) {b : α} (hb : good b)
    (hbs : b ∉ starts) (hfuel : rank b ≤ fuel) :
    (starts.map fun s => (chain next fuel s).count b).sum = 1 := by
  obtain ⟨s, hs, hsb⟩ := exists_start hrank hpred hb hbs
  have hother : ∀ s', s' ≠ s → s' ∈ starts → (chain next fuel s').count b = 0 := by
    intro s' hne hs'
    rw [List.count_eq_zero]
    exact fun hmem => hne (start_unique huniq hstart hs' hs (after_of_mem_chain hmem) hsb)
  have hone : (chain next fuel s).count b = 1 :=
    List.count_eq_one_of_mem (nodup_chain hrank fuel s) (mem_chain hrank hsb (by omega))
  rw [sum_map_eq_of_unique hnodup hs hother, hone]

end

/-! ## Grounded lists -/

/-- A list, newest element first, whose elements only use older ones. -/
inductive Grounded (uses : α → α → Prop) : List α → Prop
  | nil : Grounded uses []
  | cons {a : α} {l : List α} (h : Grounded uses l) (hnew : a ∉ l)
      (huses : ∀ b, uses a b → b ∈ l) : Grounded uses (a :: l)

variable {uses : α → α → Prop} {l : List α}

theorem Grounded.mem_of_uses (h : Grounded uses l) {a b : α} (ha : a ∈ l) (hab : uses a b) :
    b ∈ l := by
  induction h with
  | nil => simp at ha
  | cons h hnew huses ih =>
    rcases List.mem_cons.mp ha with rfl | ha
    · exact List.mem_cons_of_mem _ (huses b hab)
    · exact List.mem_cons_of_mem _ (ih ha)

/-- No two elements use each other. -/
theorem Grounded.not_mutual (h : Grounded uses l) {a b : α} (ha : a ∈ l) (hab : uses a b) :
    ¬ uses b a := by
  induction h with
  | nil => simp at ha
  | @cons c l h hnew huses ih =>
    intro hba
    rcases List.mem_cons.mp ha with rfl | ha
    · exact hnew (h.mem_of_uses (huses b hab) hba)
    · exact ih ha hba

/-- Elements that only use what is there can be put in. -/
theorem Grounded.extend [DecidableEq α] (h : Grounded uses l) {new : List α}
    (hnew : ∀ a ∈ new, ∀ b, uses a b → b ∈ l) :
    ∃ l', Grounded uses l' ∧ l ⊆ l' ∧ new ⊆ l' := by
  induction new with
  | nil => exact ⟨l, h, List.Subset.refl l, by simp⟩
  | cons a new ih =>
    obtain ⟨l', h', hl, hn⟩ := ih fun b hb => hnew b (List.mem_cons_of_mem _ hb)
    by_cases ha : a ∈ l'
    · exact ⟨l', h', hl, List.cons_subset.mpr ⟨ha, hn⟩⟩
    · refine ⟨a :: l', .cons h' ha fun b hb => hl (hnew a (List.mem_cons_self ..) b hb), ?_, ?_⟩
      · exact fun x hx => List.mem_cons_of_mem _ (hl hx)
      · exact List.cons_subset.mpr ⟨List.mem_cons_self .., fun x hx => List.mem_cons_of_mem _ (hn hx)⟩

end Chains
