import Mathlib.Data.List.Forall2
import Mathlib.Data.Nat.Notation

/-!
# Errors

Every error the library throws is an `MlsError` of one of these classes, with
a message. A function that can throw returns `Except MlsError`.
-/
namespace WebcryptoMls

inductive MlsErrorName where
  | ValidationError
  | CodecError
  | UsageError
  | DependencyError
  | CryptoVerificationError
  | CryptoError
  | InternalError
  /-- Every failure of an attachment, whatever its cause. -/
  | AttachmentError
  /-- The runtime's own errors. -/
  | RangeError
  | TypeError
  /-- Nothing is thrown: the loop of the source never ends on this input. -/
  | NonTermination
  deriving Repr, DecidableEq

structure MlsError where
  name : MlsErrorName
  message : String
  deriving Repr, DecidableEq

def validationError (message : String) : MlsError := ⟨.ValidationError, message⟩

def codecError (message : String) : MlsError := ⟨.CodecError, message⟩

def usageError (message : String) : MlsError := ⟨.UsageError, message⟩

def cryptoVerificationError (message : String) : MlsError := ⟨.CryptoVerificationError, message⟩

/-- The constructor puts its own text in front of the message. -/
def internalError (message : String) : MlsError :=
  ⟨.InternalError, "This error should never occur, if you see this please " ++
    "submit a bug report. Message: " ++ message⟩

def attachmentError : MlsError := ⟨.AttachmentError, "attachment integrity failure"⟩

def rangeError (message : String) : MlsError := ⟨.RangeError, message⟩

def typeError (message : String) : MlsError := ⟨.TypeError, message⟩

def nonTermination (loop : String) : MlsError := ⟨.NonTermination, loop⟩

/-- Throw the error a check reported, if it reported one. -/
def throwIfDefined (err : Option MlsError) : Except MlsError Unit :=
  match err with
  | none => .ok ()
  | some e => .error e

@[simp] theorem throwIfDefined_eq_ok {err : Option MlsError} :
    throwIfDefined err = .ok () ↔ err = none := by
  cases err <;> simp [throwIfDefined]

@[simp] theorem ok_bind {α β : Type} (a : α) (f : α → Except MlsError β) :
    ((Except.ok a : Except MlsError α) >>= f) = f a := rfl

@[simp] theorem error_bind {α β : Type} (e : MlsError) (f : α → Except MlsError β) :
    ((Except.error e : Except MlsError α) >>= f) = .error e := rfl

/-- A sequence of throwing steps returns when its first step does and the rest
does from there. -/
theorem bind_eq_ok {α β : Type} {x : Except MlsError α} {f : α → Except MlsError β} {b : β} :
    (x >>= f) = .ok b ↔ ∃ a, x = .ok a ∧ f a = .ok b := by
  cases x <;> simp [bind, Except.bind]

@[simp] theorem map_ok {α β : Type} (a : α) (f : α → β) :
    (Except.ok a : Except MlsError α).map f = .ok (f a) := rfl

theorem map_eq_ok {α β : Type} {x : Except MlsError α} {f : α → β} {b : β} :
    x.map f = .ok b ↔ ∃ a, x = .ok a ∧ f a = b := by
  cases x <;> simp [Except.map]

theorem map_bind {α β γ : Type} (x : Except MlsError α) (f : α → Except MlsError β) (g : β → γ) :
    (x >>= f).map g = x >>= fun a => (f a).map g := by
  cases x <;> rfl

theorem exists_ok_of_toBool {α : Type} {x : Except MlsError α} (h : x.toBool = true) :
    ∃ a, x = .ok a := by
  cases x with
  | error e => cases h
  | ok a => exact ⟨a, rfl⟩

theorem mem_of_mapM {α β : Type} {f : α → Except MlsError β} {l : List α} {l' : List β}
    (h : l.mapM f = .ok l') : ∀ b ∈ l', ∃ a ∈ l, f a = .ok b := by
  induction l generalizing l' with
  | nil =>
    obtain rfl := Except.ok.inj h
    simp
  | cons a l ih =>
    rw [List.mapM_cons] at h
    obtain ⟨b, hb, h⟩ := bind_eq_ok.mp h
    obtain ⟨bs, hbs, h⟩ := bind_eq_ok.mp h
    obtain rfl := Except.ok.inj h
    rw [List.forall_mem_cons]
    refine ⟨⟨a, List.mem_cons_self .., hb⟩, fun b' hb' => ?_⟩
    obtain ⟨a', ha', hf⟩ := ih hbs b' hb'
    exact ⟨a', List.mem_cons_of_mem a ha', hf⟩

/-- A round that passes a check and returns what is known beforehand. -/
theorem mapM_eq_ok_iff {α β : Type} {f : α → Except MlsError β} {P : α → Prop} {g : α → β}
    {l : List α} {l' : List β} (hf : ∀ a ∈ l, ∀ b, f a = .ok b ↔ P a ∧ b = g a) :
    l.mapM f = .ok l' ↔ (∀ a ∈ l, P a) ∧ l' = l.map g := by
  induction l generalizing l' with
  | nil => simp [pure, Except.pure, eq_comm]
  | cons a l ih =>
    rw [List.forall_mem_cons] at hf
    rw [List.mapM_cons, bind_eq_ok, List.forall_mem_cons, List.map_cons]
    constructor
    · rintro ⟨b, hb, h⟩
      obtain ⟨bs, hbs, h⟩ := bind_eq_ok.mp h
      obtain rfl := Except.ok.inj h
      obtain ⟨hP, rfl⟩ := (hf.1 b).mp hb
      obtain ⟨hPs, rfl⟩ := (ih hf.2).mp hbs
      exact ⟨⟨hP, hPs⟩, rfl⟩
    · rintro ⟨⟨hP, hPs⟩, rfl⟩
      exact ⟨g a, (hf.1 _).mpr ⟨hP, rfl⟩, bind_eq_ok.mpr ⟨_, (ih hf.2).mpr ⟨hPs, rfl⟩, rfl⟩⟩

theorem mapM_eq_ok {α β : Type} {f : α → Except MlsError β} {g : α → β} {l : List α}
    (h : ∀ a ∈ l, f a = .ok (g a)) : l.mapM f = .ok (l.map g) := by
  refine (mapM_eq_ok_iff (P := fun _ => True) fun a ha b => ?_).mpr ⟨fun _ _ => trivial, rfl⟩
  rw [h a ha, Except.ok.injEq, true_and, eq_comm]

theorem mapM_ok_mono {α β : Type} {f g : α → Except MlsError β} {l : List α} {l' : List β}
    (h : l.mapM f = .ok l') (hfg : ∀ a ∈ l, ∀ b, f a = .ok b → g a = .ok b) : l.mapM g = .ok l' := by
  induction l generalizing l' with
  | nil => exact h
  | cons a l ih =>
    rw [List.forall_mem_cons] at hfg
    rw [List.mapM_cons] at h ⊢
    obtain ⟨b, hb, h⟩ := bind_eq_ok.mp h
    obtain ⟨bs, hbs, h⟩ := bind_eq_ok.mp h
    rw [hfg.1 b hb, ok_bind, ih hbs hfg.2, ok_bind, h]

theorem mapM_returns {α β : Type} {f : α → Except MlsError β} {l : List α}
    (h : ∀ a ∈ l, ∃ b, f a = .ok b) : ∃ l', l.mapM f = .ok l' := by
  induction l with
  | nil => exact ⟨[], rfl⟩
  | cons a l ih =>
    rw [List.forall_mem_cons] at h
    obtain ⟨b, hb⟩ := h.1
    obtain ⟨bs, hbs⟩ := ih h.2
    exact ⟨b :: bs, by rw [List.mapM_cons, hb, ok_bind, hbs]; rfl⟩

/-- The result of every round is among the results. -/
theorem exists_mem_of_mapM {α β : Type} {f : α → Except MlsError β} {l : List α} {l' : List β}
    (h : l.mapM f = .ok l') : ∀ a ∈ l, ∃ b ∈ l', f a = .ok b := by
  induction l generalizing l' with
  | nil => simp
  | cons a l ih =>
    rw [List.mapM_cons] at h
    obtain ⟨b, hb, h⟩ := bind_eq_ok.mp h
    obtain ⟨bs, hbs, h⟩ := bind_eq_ok.mp h
    obtain rfl := Except.ok.inj h
    rw [List.forall_mem_cons]
    refine ⟨⟨b, List.mem_cons_self, hb⟩, fun a' ha' => ?_⟩
    obtain ⟨b', hb', hf⟩ := ih hbs a' ha'
    exact ⟨b', List.mem_cons_of_mem b hb', hf⟩

theorem exists_ok_of_mapM {α β : Type} {f : α → Except MlsError β} {l : List α} {l' : List β}
    (h : l.mapM f = .ok l') : ∀ a ∈ l, ∃ b, f a = .ok b := by
  intro a ha
  obtain ⟨b, -, hb⟩ := exists_mem_of_mapM h a ha
  exact ⟨b, hb⟩

/-- The results of a loop stand in the order of what they are results of. -/
theorem forall₂_of_mapM {α β : Type} {f : α → Except MlsError β} {l : List α} {l' : List β}
    (h : l.mapM f = .ok l') : List.Forall₂ (fun a b => f a = .ok b) l l' := by
  induction l generalizing l' with
  | nil =>
    obtain rfl := Except.ok.inj h
    exact .nil
  | cons a l ih =>
    rw [List.mapM_cons] at h
    obtain ⟨b, hb, h⟩ := bind_eq_ok.mp h
    obtain ⟨bs, hbs, h⟩ := bind_eq_ok.mp h
    obtain rfl := Except.ok.inj h
    exact .cons hb (ih hbs)

theorem mapM_append_eq_ok {α β : Type} {f : α → Except MlsError β} {l m : List α} {l' : List β}
    (h : (l ++ m).mapM f = .ok l') :
    ∃ a b, l.mapM f = .ok a ∧ m.mapM f = .ok b ∧ l' = a ++ b := by
  rw [List.mapM_append] at h
  obtain ⟨a, ha, h⟩ := bind_eq_ok.mp h
  obtain ⟨b, hb, h⟩ := bind_eq_ok.mp h
  exact ⟨a, b, ha, hb, (Except.ok.inj h).symm⟩

/-- A loop whose rounds return and keep an invariant returns with it. -/
theorem foldlM_range'_ok {β : Type} {f : β → ℕ → Except MlsError β} {P : ℕ → β → Prop} {a n : ℕ}
    {b : β} (h₀ : P a b)
    (hstep : ∀ i, a ≤ i → i < a + n → ∀ b, P i b → ∃ b', f b i = .ok b' ∧ P (i + 1) b') :
    ∃ b', (List.range' a n).foldlM f b = .ok b' ∧ P (a + n) b' := by
  induction n with
  | zero => exact ⟨b, rfl, h₀⟩
  | succ n ih =>
    obtain ⟨mid, hmid, hP⟩ := ih fun i hle hlt => hstep i hle (by omega)
    obtain ⟨b', hb', hP'⟩ := hstep (a + n) (by omega) (by omega) mid hP
    refine ⟨b', ?_, hP'⟩
    rw [List.range'_concat, List.foldlM_append, hmid, ok_bind, Nat.one_mul, List.foldlM_cons, hb',
      ok_bind]
    rfl

theorem foldlM_range_ok {β : Type} {f : β → ℕ → Except MlsError β} {P : ℕ → β → Prop} {n : ℕ}
    {b : β} (h₀ : P 0 b) (hstep : ∀ i < n, ∀ b, P i b → ∃ b', f b i = .ok b' ∧ P (i + 1) b') :
    ∃ b', (List.range n).foldlM f b = .ok b' ∧ P n b' := by
  have hstep' : ∀ i, 0 ≤ i → i < 0 + n → ∀ b, P i b → ∃ b', f b i = .ok b' ∧ P (i + 1) b' :=
    fun i _ hlt => hstep i (by omega)
  obtain ⟨b', hb', hP⟩ := foldlM_range'_ok h₀ hstep'
  rw [Nat.zero_add] at hP
  exact ⟨b', by rwa [List.range_eq_range'], hP⟩

/-- A loop whose rounds keep an invariant ends with it. -/
theorem foldlM_range_inv {β : Type} {f : β → ℕ → Except MlsError β} {P : ℕ → β → Prop} {n : ℕ}
    {b b' : β} (h₀ : P 0 b) (hstep : ∀ i < n, ∀ b c, P i b → f b i = .ok c → P (i + 1) c)
    (h : (List.range n).foldlM f b = .ok b') : P n b' := by
  induction n generalizing b' with
  | zero =>
    obtain rfl := Except.ok.inj h
    exact h₀
  | succ n ih =>
    rw [List.range_succ, List.foldlM_append] at h
    obtain ⟨mid, hmid, h⟩ := bind_eq_ok.mp h
    rw [List.foldlM_cons] at h
    obtain ⟨last, hlast, h⟩ := bind_eq_ok.mp h
    obtain rfl := Except.ok.inj h
    exact hstep n (by omega) mid last (ih (fun i hi => hstep i (by omega)) hmid) hlast

/-- A loop over a list whose rounds keep an invariant ends with it. -/
theorem foldlM_inv {α β : Type} {f : β → α → Except MlsError β} {P : β → Prop} {l : List α}
    {b b' : β} (h₀ : P b) (hstep : ∀ a ∈ l, ∀ b c, P b → f b a = .ok c → P c)
    (h : l.foldlM f b = .ok b') : P b' := by
  induction l generalizing b with
  | nil =>
    obtain rfl := Except.ok.inj h
    exact h₀
  | cons a l ih =>
    rw [List.forall_mem_cons] at hstep
    rw [List.foldlM_cons] at h
    obtain ⟨c, hc, h⟩ := bind_eq_ok.mp h
    exact ih (hstep.1 b c h₀ hc) hstep.2 h

/-- Rounds that come to the same make loops that do. -/
theorem foldlM_congr {α β : Type} {f g : β → α → Except MlsError β} {l : List α}
    (h : ∀ a ∈ l, ∀ b, f b a = g b a) (b : β) : l.foldlM f b = l.foldlM g b := by
  induction l generalizing b with
  | nil => rfl
  | cons a l ih =>
    rw [List.forall_mem_cons] at h
    rw [List.foldlM_cons, List.foldlM_cons, h.1 b]
    congr 1
    funext c
    exact ih h.2 c

/-- Every round of a loop that returns has returned. -/
theorem foldlM_round_ok {α β : Type} {f : β → α → Except MlsError β} {l : List α} {a b : β}
    (h : l.foldlM f a = .ok b) {x : α} (hx : x ∈ l) : ∃ c c', f c x = .ok c' := by
  induction l generalizing a with
  | nil => simp at hx
  | cons y l ih =>
    rw [List.foldlM_cons] at h
    obtain ⟨a', ha', h⟩ := bind_eq_ok.mp h
    rcases List.mem_cons.mp hx with rfl | hx
    · exact ⟨a, a', ha'⟩
    · exact ih h hx

/-- A loop that returns the first error one of its rounds reports. -/
def firstError {α : Type} (check : α → Except MlsError (Option MlsError)) :
    List α → Except MlsError (Option MlsError)
  | [] => pure none
  | a :: as => do
    let err ← check a
    match err with
    | some e => pure (some e)
    | none => firstError check as

/-- Such a loop reports nothing exactly when no round throws or reports. -/
theorem firstError_eq_none {α : Type} {check : α → Except MlsError (Option MlsError)}
    {as : List α} : firstError check as = .ok none ↔ ∀ a ∈ as, check a = .ok none := by
  induction as with
  | nil => simp [firstError, pure, Except.pure]
  | cons a as ih =>
    rw [firstError, List.forall_mem_cons, ← ih, bind_eq_ok]
    constructor
    · rintro ⟨err, ha, h⟩
      cases err with
      | none => exact ⟨ha, h⟩
      | some e => cases h
    · rintro ⟨ha, h⟩
      exact ⟨none, ha, h⟩

end WebcryptoMls
