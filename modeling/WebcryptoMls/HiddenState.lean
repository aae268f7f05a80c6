import Mathlib.Logic.Function.Basic

/-!
# Computations with hidden state

A cache is state that no caller sees. A computation over such a state simulates a plain one
when the two return alike, value for value and error for error, from every state of a kind.
The state outlives an error, so what a failed computation leaves behind has to be good too.
-/
namespace HiddenState

abbrev Stateful (σ ε α : Type) := ExceptT ε (StateM σ) α

variable {σ ε α β γ δ : Type}

/-- What a computation returns, and the state it leaves. -/
def exec (m : Stateful σ ε α) (s : σ) : Except ε α × σ := StateT.run (ExceptT.run m) s

/-- A plain computation, which does not look at the state. -/
def plain (a : Except ε α) : Stateful σ ε α := ExceptT.mk (pure a)

@[simp] theorem exec_pure (a : α) (s : σ) : exec (pure a : Stateful σ ε α) s = (.ok a, s) := rfl

@[simp] theorem exec_throw (e : ε) (s : σ) :
    exec (throw e : Stateful σ ε α) s = (.error e, s) := rfl

@[simp] theorem exec_get (s : σ) : exec (get : Stateful σ ε σ) s = (.ok s, s) := rfl

@[simp] theorem exec_set (s' s : σ) : exec (set s' : Stateful σ ε PUnit) s = (.ok ⟨⟩, s') := rfl

@[simp] theorem exec_modify (f : σ → σ) (s : σ) :
    exec (modify f : Stateful σ ε PUnit) s = (.ok ⟨⟩, f s) := rfl

@[simp] theorem exec_plain (a : Except ε α) (s : σ) : exec (plain a) s = (a, s) := rfl

theorem exec_bind_ok {m : Stateful σ ε α} {f : α → Stateful σ ε β} {s s' : σ} {a : α}
    (h : exec m s = (.ok a, s')) : exec (m >>= f) s = exec (f a) s' := by
  change StateT.run (ExceptT.bindCont f (exec m s).1) (exec m s).2 = _
  rw [h]
  rfl

theorem exec_bind_error {m : Stateful σ ε α} {f : α → Stateful σ ε β} {s s' : σ} {e : ε}
    (h : exec m s = (.error e, s')) : exec (m >>= f) s = (.error e, s') := by
  change StateT.run (ExceptT.bindCont f (exec m s).1) (exec m s).2 = _
  rw [h]
  rfl

/-- From every state that satisfies `P` the computation returns as the plain one does: a value
that `Q` relates to the plain value and to the state left, or its error and a state that
satisfies `I`. -/
def Simulates (I P : σ → Prop) (m : Stateful σ ε β) (a : Except ε α) (Q : α → β → σ → Prop) :
    Prop :=
  ∀ s, P s → (∀ x, a = .ok x → ∃ b s', exec m s = (.ok b, s') ∧ Q x b s') ∧
    (∀ e, a = .error e → ∃ s', exec m s = (.error e, s') ∧ I s')

namespace Simulates

variable {I P P' : σ → Prop} {m : Stateful σ ε β} {a : Except ε α} {Q Q' : α → β → σ → Prop}

theorem pure {x : α} {b : β} (h : ∀ s, P s → Q x b s) :
    Simulates I P (Pure.pure b : Stateful σ ε β) (.ok x) Q := by
  refine fun s hs => ⟨fun x' hx => ?_, fun e he => (by cases he)⟩
  obtain rfl := Except.ok.inj hx
  exact ⟨b, s, rfl, h s hs⟩

theorem throw {e : ε} (h : ∀ s, P s → I s) :
    Simulates I P (MonadExcept.throw e : Stateful σ ε β) (.error e : Except ε α) Q := by
  refine fun s hs => ⟨fun x hx => (by cases hx), fun e' he => ?_⟩
  obtain rfl := Except.error.inj he
  exact ⟨s, rfl, h s hs⟩

theorem lift {Q : α → α → σ → Prop} (hI : ∀ s, P s → I s)
    (hQ : ∀ x s, a = .ok x → P s → Q x x s) : Simulates I P (plain a) a Q := by
  refine fun s hs => ⟨fun x hx => ⟨x, s, ?_, hQ x s hx hs⟩, fun e he => ⟨s, ?_, hI s hs⟩⟩
  · rw [exec_plain, hx]
  · rw [exec_plain, he]

theorem conseq (h : Simulates I P m a Q) (hP : ∀ s, P' s → P s)
    (hQ : ∀ x b s, a = .ok x → Q x b s → Q' x b s) : Simulates I P' m a Q' := by
  intro s hs
  obtain ⟨hok, herror⟩ := h s (hP s hs)
  refine ⟨fun x hx => ?_, herror⟩
  obtain ⟨b, s', hexec, hb⟩ := hok x hx
  exact ⟨b, s', hexec, hQ x b s' hx hb⟩

theorem bind {R : α → β → σ → Prop} {f : β → Stateful σ ε δ} {g : α → Except ε γ}
    {Q : γ → δ → σ → Prop} (h : Simulates I P m a R)
    (hf : ∀ x b, a = .ok x → Simulates I (R x b) (f b) (g x) Q) :
    Simulates I P (m >>= f) (a >>= g) Q := by
  intro s hs
  obtain ⟨hok, herror⟩ := h s hs
  cases ha : a with
  | error e =>
    obtain ⟨s', hexec, hI⟩ := herror e ha
    refine ⟨fun x hx => (by cases hx), fun e' he => ⟨s', ?_, hI⟩⟩
    obtain rfl := Except.error.inj he
    exact exec_bind_error hexec
  | ok x =>
    obtain ⟨b, s', hexec, hR⟩ := hok x ha
    have hrest := hf x b ha s' hR
    rw [exec_bind_ok hexec]
    exact hrest

/-- Steps that only the simulating computation takes. -/
theorem bind_left {R : PUnit → β → σ → Prop} {f : β → Stateful σ ε δ} {c : Except ε γ}
    {Q : γ → δ → σ → Prop} (h : Simulates I P m (.ok ⟨⟩) R)
    (hf : ∀ b, Simulates I (R ⟨⟩ b) (f b) c Q) : Simulates I P (m >>= f) c Q :=
  bind (a := .ok PUnit.unit) (g := fun _ => c) h fun _ b _ => hf b

/-- A step that returns the plain value itself. -/
theorem bind_same {R : σ → Prop} {m : Stateful σ ε α} {f : α → Stateful σ ε δ}
    {g : α → Except ε γ} {Q : γ → δ → σ → Prop}
    (h : Simulates I P m a fun x b s => b = x ∧ R s)
    (hf : ∀ x, a = .ok x → Simulates I R (f x) (g x) Q) :
    Simulates I P (m >>= f) (a >>= g) Q := by
  refine bind h fun x b hx s hs => ?_
  obtain ⟨rfl, hR⟩ := hs
  exact hf b hx s hR

/-- A step that does not look at the state. -/
theorem plain_bind {f : α → Stateful σ ε δ} {g : α → Except ε γ} {Q : γ → δ → σ → Prop}
    (hI : ∀ s, P s → I s) (hf : ∀ x, a = .ok x → Simulates I P (f x) (g x) Q) :
    Simulates I P (plain a >>= f) (a >>= g) Q :=
  bind_same (lift hI fun _ _ _ hs => ⟨rfl, hs⟩) hf

/-- A step that ends the plain computation, and further ones of the simulating one. -/
theorem bind_then {R : α → β → σ → Prop} {f : β → Stateful σ ε δ} {Q : α → δ → σ → Prop}
    (h : Simulates I P m a R) (hf : ∀ x b, a = .ok x → Simulates I (R x b) (f b) (.ok x) Q) :
    Simulates I P (m >>= f) a Q := by
  have hbind := h.bind (g := fun x => .ok x) hf
  rwa [show (a >>= fun x => Except.ok x) = a from bind_pure a] at hbind

theorem plain_then {f : α → Stateful σ ε δ} {Q : α → δ → σ → Prop} (hI : ∀ s, P s → I s)
    (hf : ∀ x, a = .ok x → Simulates I P (f x) (.ok x) Q) : Simulates I P (plain a >>= f) a Q := by
  refine bind_then (R := fun x b s => b = x ∧ P s) (lift hI fun _ _ _ hs => ⟨rfl, hs⟩)
    fun x b hx s hs => ?_
  obtain ⟨rfl, hP⟩ := hs
  exact hf b hx s hP

/-- A read of what is known of the state. -/
theorem read {m : Stateful σ ε β} {b : β} {f : β → Stateful σ ε δ} {Q : α → δ → σ → Prop}
    (hm : ∀ s, P s → exec m s = (.ok b, s)) (h : Simulates I P (f b) a Q) :
    Simulates I P (m >>= f) a Q := by
  intro s hs
  rw [exec_bind_ok (hm s hs)]
  exact h s hs

/-- A read of the state, from which the rest goes on. -/
theorem get {f : σ → Stateful σ ε β} (h : ∀ s, P s → Simulates I (Eq s) (f s) a Q) :
    Simulates I P (MonadState.get >>= f) a Q := by
  intro s hs
  rw [exec_bind_ok (exec_get s)]
  exact h s hs s rfl

theorem ite {c : Prop} [Decidable c] {m m' : Stateful σ ε β} {a a' : Except ε α}
    (ht : c → Simulates I P m a Q) (hf : ¬c → Simulates I P m' a' Q) :
    Simulates I P (if c then m else m') (if c then a else a') Q := by
  by_cases h : c
  · rw [if_pos h, if_pos h]
    exact ht h
  · rw [if_neg h, if_neg h]
    exact hf h

theorem change {f : σ → σ} {Q : PUnit → PUnit → σ → Prop} (h : ∀ s, P s → Q ⟨⟩ ⟨⟩ (f s)) :
    Simulates I P (modify f : Stateful σ ε PUnit) (.ok ⟨⟩) Q := by
  refine fun s hs => ⟨fun x _ => ⟨⟨⟩, f s, rfl, h s hs⟩, fun e he => (by cases he)⟩

/-- A loop whose rounds each keep an invariant of both sides. -/
theorem foldlM {J : α → β → σ → Prop} {f : β → γ → Stateful σ ε β} {g : α → γ → Except ε α}
    {l : List γ} (hround : ∀ c ∈ l, ∀ x b, Simulates I (J x b) (f b c) (g x c) J) {x : α} {b : β} :
    Simulates I (J x b) (l.foldlM f b) (l.foldlM g x) J := by
  induction l generalizing x b with
  | nil => exact pure fun _ h => h
  | cons c l ih =>
    rw [List.foldlM_cons, List.foldlM_cons]
    exact bind (hround c (List.mem_cons_self ..) x b) fun x' b' _ =>
      ih fun c' hc' => hround c' (List.mem_cons_of_mem c hc')

end Simulates

end HiddenState
