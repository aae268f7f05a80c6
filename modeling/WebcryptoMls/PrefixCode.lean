import Mathlib.Tactic

/-!
# Prefix codes

An encoder maps a value to a list of symbols, or fails. It is prefix free when
the end of an encoding never depends on what follows it; concatenations of such
encodings can then be cut apart again, which is all that a decoder would need
and all that a collision argument over encoded data does need. Nothing here asks
two values with one encoding to be equal.
-/
namespace PrefixCode

variable {α β ε σ : Type}

/-- An encoder that may refuse its input. -/
abbrev Encoding (ε σ α : Type) := α → Except ε (List σ)

/-- No encoding is a proper prefix of another. -/
def PrefixFree (e : Encoding ε σ α) : Prop :=
  ∀ a b x y r s, e a = .ok x → e b = .ok y → x ++ r = y ++ s → x = y

theorem PrefixFree.rest {e : Encoding ε σ α} (h : PrefixFree e) {a b : α} {x y r s : List σ}
    (ha : e a = .ok x) (hb : e b = .ok y) (heq : x ++ r = y ++ s) : x = y ∧ r = s := by
  have hxy := h a b x y r s ha hb heq
  subst hxy
  exact ⟨rfl, List.append_cancel_left heq⟩

theorem PrefixFree.comp {e : Encoding ε σ α} (h : PrefixFree e) (f : β → α) :
    PrefixFree fun b => e (f b) :=
  fun a b => h (f a) (f b)

/-- Encodings of one length are prefix free. -/
theorem prefixFree_of_length {e : Encoding ε σ α} (n : ℕ)
    (h : ∀ a x, e a = .ok x → x.length = n) : PrefixFree e := by
  intro a b x y r s ha hb heq
  exact (List.append_inj heq ((h a x ha).trans (h b y hb).symm)).1

/-- One encoding after another, each of a part of the value. -/
def concat (es : List (Encoding ε σ α)) : Encoding ε σ α := fun a => do
  let parts ← es.mapM fun e => e a
  pure parts.flatten

@[simp] theorem concat_nil (a : α) : concat ([] : List (Encoding ε σ α)) a = .ok [] := rfl

theorem concat_cons (e : Encoding ε σ α) (es : List (Encoding ε σ α)) (a : α) :
    concat (e :: es) a = (do
      let x ← e a
      let y ← concat es a
      pure (x ++ y)) := by
  simp only [concat, List.mapM_cons, bind, Except.bind, pure, Except.pure]
  cases e a with
  | error => rfl
  | ok x => cases List.mapM (fun e => e a) es <;> rfl

theorem concat_cons_eq_ok {e : Encoding ε σ α} {es : List (Encoding ε σ α)} {a : α} {z : List σ} :
    concat (e :: es) a = .ok z ↔ ∃ x y, e a = .ok x ∧ concat es a = .ok y ∧ z = x ++ y := by
  rw [concat_cons]
  cases h : e a with
  | error => simp [bind, Except.bind]
  | ok x =>
    cases h' : concat es a with
    | error => simp [bind, Except.bind]
    | ok y => simp [bind, Except.bind, pure, Except.pure, eq_comm]

theorem concat_singleton_eq_ok {e : Encoding ε σ α} {a : α} {z : List σ} :
    concat [e] a = .ok z ↔ e a = .ok z := by
  rw [concat_cons_eq_ok]
  constructor
  · rintro ⟨x, y, hx, hy, rfl⟩
    obtain rfl := Except.ok.inj hy
    rw [hx]
    exact congrArg Except.ok (List.append_nil x).symm
  · exact fun h => ⟨z, [], h, rfl, (List.append_nil z).symm⟩

/-- Concatenations that agree agree part by part. -/
theorem concat_parts {es : List (Encoding ε σ α)} (hes : ∀ e ∈ es, PrefixFree e) {a b : α}
    {x y r s : List σ} (ha : concat es a = .ok x) (hb : concat es b = .ok y)
    (heq : x ++ r = y ++ s) : x = y ∧ ∀ e ∈ es, e a = e b := by
  induction es generalizing x y with
  | nil =>
    simp only [concat_nil, Except.ok.injEq] at ha hb
    exact ⟨ha.symm.trans hb, by simp⟩
  | cons e es ih =>
    obtain ⟨x1, x2, hx1, hx2, rfl⟩ := concat_cons_eq_ok.mp ha
    obtain ⟨y1, y2, hy1, hy2, rfl⟩ := concat_cons_eq_ok.mp hb
    rw [List.append_assoc, List.append_assoc] at heq
    obtain ⟨h1, hrest⟩ := (hes e (List.mem_cons_self ..)).rest hx1 hy1 heq
    obtain ⟨h2, hparts⟩ := ih (fun e he => hes e (List.mem_cons_of_mem _ he)) hx2 hy2 hrest
    refine ⟨by rw [h1, h2], ?_⟩
    intro e' he'
    rcases List.mem_cons.mp he' with rfl | he'
    · rw [hx1, hy1, h1]
    · exact hparts e' he'

theorem prefixFree_concat {es : List (Encoding ε σ α)} (hes : ∀ e ∈ es, PrefixFree e) :
    PrefixFree (concat es) :=
  fun _ _ _ _ _ _ ha hb heq => (concat_parts hes ha hb heq).1

/-- A part of a concatenation that returns returns. -/
theorem concat_part_ok {es : List (Encoding ε σ α)} {a : α} {z : List σ}
    (h : concat es a = .ok z) {e : Encoding ε σ α} (he : e ∈ es) : ∃ x, e a = .ok x := by
  induction es generalizing z with
  | nil => simp at he
  | cons e' es ih =>
    obtain ⟨x, y, hx, hy, -⟩ := concat_cons_eq_ok.mp h
    rcases List.mem_cons.mp he with rfl | he
    · exact ⟨x, hx⟩
    · exact ih hy he

/-- The encodings of a list of values, back to back. -/
def items (e : Encoding ε σ α) : Encoding ε σ (List α) := fun l => do
  let parts ← l.mapM e
  pure parts.flatten

@[simp] theorem items_nil (e : Encoding ε σ α) : items e [] = .ok [] := rfl

theorem items_cons_eq_ok {e : Encoding ε σ α} {a : α} {l : List α} {z : List σ} :
    items e (a :: l) = .ok z ↔ ∃ x y, e a = .ok x ∧ items e l = .ok y ∧ z = x ++ y := by
  simp only [items, List.mapM_cons, bind, Except.bind, pure, Except.pure]
  cases e a with
  | error => simp
  | ok x => cases List.mapM e l <;> simp [eq_comm]

/-- A list of non-empty, prefix-free encodings determines each of them. -/
theorem items_inj_on {e : Encoding ε σ α} (he : PrefixFree e) (hne : ∀ a, e a ≠ .ok [])
    {l l' : List α} (hinj : ∀ a ∈ l, ∀ b ∈ l', ∀ x, e a = .ok x → e b = .ok x → a = b) {z : List σ}
    (h : items e l = .ok z) (h' : items e l' = .ok z) : l = l' := by
  induction l generalizing l' z with
  | nil =>
    cases l' with
    | nil => rfl
    | cons b l' =>
      simp only [items_nil, Except.ok.injEq] at h
      obtain ⟨x, y, hx, -, hz⟩ := items_cons_eq_ok.mp h'
      rw [← h] at hz
      exact absurd (by rw [hx, (List.append_eq_nil_iff.mp hz.symm).1]) (hne b)
  | cons a l ih =>
    obtain ⟨x, y, hx, hy, hz⟩ := items_cons_eq_ok.mp h
    cases l' with
    | nil =>
      simp only [items_nil, Except.ok.injEq] at h'
      rw [← h'] at hz
      exact absurd (by rw [hx, (List.append_eq_nil_iff.mp hz.symm).1]) (hne a)
    | cons b l' =>
      obtain ⟨x', y', hx', hy', hz'⟩ := items_cons_eq_ok.mp h'
      obtain ⟨h1, h2⟩ := he.rest hx hx' (hz.symm.trans hz')
      subst h1 h2
      have hrest := ih (fun a ha b hb => hinj a (by simp [ha]) b (by simp [hb])) hy hy'
      rw [hinj a (by simp) b (by simp) x hx hx', hrest]

theorem items_inj {e : Encoding ε σ α} (he : PrefixFree e) (hne : ∀ a, e a ≠ .ok [])
    (hinj : ∀ a b x, e a = .ok x → e b = .ok x → a = b) {l l' : List α} {z : List σ}
    (h : items e l = .ok z) (h' : items e l' = .ok z) : l = l' :=
  items_inj_on he hne (fun a _ b _ => hinj a b) h h'

end PrefixCode
