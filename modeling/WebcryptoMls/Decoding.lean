import WebcryptoMls.PrefixCode

/-!
# Decoders

A decoder reads a list of symbols at an offset and tells what it found and how
many symbols it took; it may also find nothing or fail. Against an encoder two
things can be asked of it. It is canonical when what it takes is the encoding of
what it found, so no value is read from two strings. It recovers a value when it
finds that value wherever its encoding stands. Both are kept by running decoders
one after the other, against encodings written one after the other.
-/
namespace PrefixCode

variable {α β γ ε σ : Type}

def Decoding (ε σ α : Type) := List σ → ℕ → Except ε (Option (α × ℕ))

namespace Decoding

/-- Takes nothing. -/
def succeed (a : α) : Decoding ε σ α := fun _ _ => .ok (some (a, 0))

/-- Finds nothing anywhere. -/
def nothing : Decoding ε σ α := fun _ _ => .ok none

/-- Runs a second decoder, chosen by what the first found, where the first ended. -/
def flatMap (d : Decoding ε σ α) (f : α → Decoding ε σ β) : Decoding ε σ β := fun b offset =>
  match d b offset with
  | .error e => .error e
  | .ok none => .ok none
  | .ok (some (a, len)) =>
    match f a b (offset + len) with
    | .error e => .error e
    | .ok none => .ok none
    | .ok (some (c, len')) => .ok (some (c, len + len'))

instance : Monad (Decoding ε σ) where
  pure := succeed
  bind := flatMap

/-- Finds what another decoder found if it passes. -/
def filterMap (d : Decoding ε σ α) (f : α → Option β) : Decoding ε σ β := fun b offset =>
  match d b offset with
  | .error e => .error e
  | .ok none => .ok none
  | .ok (some (a, len)) => .ok ((f a).map fun c => (c, len))

theorem pure_eq_ok {a c : α} {b : List σ} {offset len : ℕ} :
    (pure a : Decoding ε σ α) b offset = .ok (some (c, len)) ↔ a = c ∧ 0 = len := by
  simp [pure, succeed]

theorem bind_eq_ok {d : Decoding ε σ α} {f : α → Decoding ε σ β} {b : List σ} {offset len : ℕ}
    {c : β} : (d >>= f) b offset = .ok (some (c, len)) ↔ ∃ a m n, d b offset = .ok (some (a, m)) ∧
      f a b (offset + m) = .ok (some (c, n)) ∧ m + n = len := by
  simp only [bind, flatMap]
  cases hd : d b offset with
  | error e => simp
  | ok o =>
    cases o with
    | none => simp
    | some p =>
      obtain ⟨a, m⟩ := p
      simp only [Except.ok.injEq, Option.some.injEq, Prod.mk.injEq]
      cases hf : f a b (offset + m) with
      | error e =>
        simp only [reduceCtorEq, false_iff]
        rintro ⟨a', m', n, ⟨rfl, rfl⟩, h, -⟩
        rw [hf] at h
        simp at h
      | ok o =>
        cases o with
        | none =>
          simp only [Except.ok.injEq, reduceCtorEq, false_iff]
          rintro ⟨a', m', n, ⟨rfl, rfl⟩, h, -⟩
          rw [hf] at h
          simp at h
        | some q =>
          obtain ⟨c', n⟩ := q
          simp only [Except.ok.injEq, Option.some.injEq, Prod.mk.injEq]
          constructor
          · rintro ⟨rfl, rfl⟩
            exact ⟨a, m, n, ⟨rfl, rfl⟩, hf, rfl⟩
          · rintro ⟨a', m', n', ⟨rfl, rfl⟩, h, rfl⟩
            rw [hf] at h
            simpa using h

theorem filterMap_eq_ok {d : Decoding ε σ α} {f : α → Option β} {b : List σ} {offset len : ℕ}
    {c : β} : filterMap d f b offset = .ok (some (c, len)) ↔
      ∃ a, d b offset = .ok (some (a, len)) ∧ f a = some c := by
  simp only [filterMap]
  cases hd : d b offset with
  | error e => simp
  | ok o =>
    cases o with
    | none => simp
    | some p =>
      obtain ⟨a, m⟩ := p
      simp only [Except.ok.injEq, Option.map_eq_some_iff, Option.some.injEq, Prod.mk.injEq]
      constructor
      · rintro ⟨c', hf, rfl, rfl⟩
        exact ⟨a, ⟨rfl, rfl⟩, hf⟩
      · rintro ⟨a', ⟨rfl, rfl⟩, hf⟩
        exact ⟨c, hf, rfl, rfl⟩

end Decoding

/-! ## Canonical decoders -/

/-- What the decoder takes stands in a relation to what it found. -/
def Parses (d : Decoding ε σ α) (R : α → List σ → Prop) : Prop :=
  ∀ b offset a len, offset ≤ b.length → d b offset = .ok (some (a, len)) →
    ∃ x, R a x ∧ x.length = len ∧ x <+: b.drop offset

/-- What the decoder takes is the encoding of what it found. -/
def Canonical (e : Encoding ε σ α) (d : Decoding ε σ α) : Prop := Parses d fun a x => e a = .ok x

/-- Everything the decoder finds has a property. -/
def Yields (d : Decoding ε σ α) (P : α → Prop) : Prop :=
  ∀ b offset a len, d b offset = .ok (some (a, len)) → P a

theorem Parses.mono {d : Decoding ε σ α} {R S : α → List σ → Prop} (h : Parses d R)
    (hRS : ∀ a x, R a x → S a x) : Parses d S := by
  intro b offset a len hle hd
  obtain ⟨x, hx, hlen, hpre⟩ := h b offset a len hle hd
  exact ⟨x, hRS a x hx, hlen, hpre⟩

theorem Parses.and_yields {d : Decoding ε σ α} {R : α → List σ → Prop} {P : α → Prop}
    (h : Parses d R) (hP : Yields d P) : Parses d fun a x => R a x ∧ P a := by
  intro b offset a len hle hd
  obtain ⟨x, hx, hlen, hpre⟩ := h b offset a len hle hd
  exact ⟨x, ⟨hx, hP b offset a len hd⟩, hlen, hpre⟩

theorem Parses.pure {a : α} {R : α → List σ → Prop} (h : R a []) :
    Parses (pure a : Decoding ε σ α) R := by
  intro b offset c len _ hd
  obtain ⟨rfl, rfl⟩ := Decoding.pure_eq_ok.mp hd
  exact ⟨[], h, rfl, List.nil_prefix⟩

theorem Parses.nothing {R : α → List σ → Prop} : Parses (Decoding.nothing : Decoding ε σ α) R := by
  intro b offset a len _ hd
  cases hd

/-- What two decoders take one after the other. -/
theorem Parses.bind {d : Decoding ε σ α} {k : α → Decoding ε σ β} {R : α → List σ → Prop}
    {S : α → β → List σ → Prop} (hd : Parses d R) (hk : ∀ a, Parses (k a) (S a)) :
    Parses (d >>= k) fun c z => ∃ a x y, R a x ∧ S a c y ∧ z = x ++ y := by
  intro b offset c len hle h
  obtain ⟨a, m, n, ha, hc, rfl⟩ := Decoding.bind_eq_ok.mp h
  obtain ⟨x, hx, rfl, hxb⟩ := hd b offset a m hle ha
  have hlt := hxb.length_le
  rw [List.length_drop] at hlt
  obtain ⟨y, hy, rfl, hyb⟩ := hk a b (offset + x.length) c n (by omega) hc
  refine ⟨x ++ y, ⟨a, x, y, hx, hy, rfl⟩, List.length_append, ?_⟩
  rw [← List.prefix_append_right_inj x] at hyb
  have hsplit : x ++ b.drop (offset + x.length) = b.drop offset := by
    obtain ⟨r, hr⟩ := hxb
    rw [← List.drop_drop, ← hr, List.drop_left]
  rwa [hsplit] at hyb

theorem Parses.map {d : Decoding ε σ α} {R : α → List σ → Prop} {S : β → List σ → Prop} {g : α → β}
    (h : Parses d R) (hS : ∀ a x, R a x → S (g a) x) :
    Parses (d >>= fun a => Pure.pure (g a)) S := by
  refine (Parses.bind h fun a => Parses.pure (R := fun c y => c = g a ∧ y = []) ⟨rfl, rfl⟩).mono ?_
  rintro c z ⟨a, x, y, hx, ⟨rfl, rfl⟩, rfl⟩
  rw [List.append_nil]
  exact hS a x hx

theorem Parses.filterMap {d : Decoding ε σ α} {R : α → List σ → Prop} {S : β → List σ → Prop}
    {f : α → Option β} (h : Parses d R) (hS : ∀ a c x, f a = some c → R a x → S c x) :
    Parses (Decoding.filterMap d f) S := by
  intro b offset c len hle hd
  obtain ⟨a, ha, hc⟩ := Decoding.filterMap_eq_ok.mp hd
  obtain ⟨x, hx, hlen, hpre⟩ := h b offset a len hle ha
  exact ⟨x, hS a c x hc hx, hlen, hpre⟩

theorem Yields.pure {a : α} {P : α → Prop} (h : P a) : Yields (pure a : Decoding ε σ α) P := by
  intro b offset c len hd
  obtain ⟨rfl, -⟩ := Decoding.pure_eq_ok.mp hd
  exact h

theorem Yields.bind {d : Decoding ε σ α} {k : α → Decoding ε σ β} {P : β → Prop}
    (hk : ∀ a, Yields (k a) P) : Yields (d >>= k) P := by
  intro b offset c len h
  obtain ⟨a, m, n, -, hc, -⟩ := Decoding.bind_eq_ok.mp h
  exact hk a b _ c n hc

theorem Yields.bind_of {d : Decoding ε σ α} {k : α → Decoding ε σ β} {Q : α → Prop} {P : β → Prop}
    (hd : Yields d Q) (hk : ∀ a, Q a → Yields (k a) P) : Yields (d >>= k) P := by
  intro b offset c len h
  obtain ⟨a, m, n, ha, hc, -⟩ := Decoding.bind_eq_ok.mp h
  exact hk a (hd b offset a m ha) b _ c n hc

theorem Yields.map {d : Decoding ε σ α} {P : α → Prop} {Q : β → Prop} {g : α → β}
    (h : Yields d P) (hQ : ∀ a, P a → Q (g a)) : Yields (d >>= fun a => Pure.pure (g a)) Q :=
  .bind_of h fun a ha => .pure (hQ a ha)

theorem Yields.filterMap {d : Decoding ε σ α} {P : α → Prop} {Q : β → Prop} {f : α → Option β}
    (h : Yields d P) (hQ : ∀ a c, P a → f a = some c → Q c) : Yields (Decoding.filterMap d f) Q := by
  intro b offset c len hd
  obtain ⟨a, ha, hc⟩ := Decoding.filterMap_eq_ok.mp hd
  exact hQ a c (h b offset a len ha) hc

theorem Yields.nothing {P : α → Prop} : Yields (Decoding.nothing : Decoding ε σ α) P :=
  fun _ _ _ _ hd => nomatch hd

/-- A whole input that is taken is the encoding of what was found in it. -/
theorem Canonical.encodes {e : Encoding ε σ α} {d : Decoding ε σ α} (h : Canonical e d)
    {b : List σ} {a : α} (hd : d b 0 = .ok (some (a, b.length))) : e a = .ok b := by
  obtain ⟨x, hx, hlen, hpre⟩ := h b 0 a b.length (Nat.zero_le _) hd
  rw [List.drop_zero] at hpre
  rw [hx, hpre.eq_of_length hlen]

theorem canonical_nil {a : α} : Canonical (concat ([] : List (Encoding ε σ α))) (pure a) :=
  Parses.pure (concat_nil a)

/-- The fields of a value, encoded and decoded in one order. -/
theorem Canonical.field {e : Encoding ε σ α} {d : Decoding ε σ α} {f : γ → α}
    {es : List (Encoding ε σ γ)} {k : α → Decoding ε σ γ} (hd : Canonical e d)
    (hf : ∀ a, Yields (k a) fun c => f c = a) (hk : ∀ a, Canonical (concat es) (k a)) :
    Canonical (concat ((fun c => e (f c)) :: es)) (d >>= k) := by
  refine (Parses.bind hd fun a => (hk a).and_yields (hf a)).mono ?_
  rintro c z ⟨a, x, y, hx, ⟨hy, rfl⟩, rfl⟩
  exact concat_cons_eq_ok.mpr ⟨x, y, hx, hy, rfl⟩

/-- A tag, then what the tag says. -/
theorem Canonical.tagged {tag : Encoding ε σ α} {d : Decoding ε σ α} {e : Encoding ε σ γ}
    {k : α → Decoding ε σ γ} (hd : Canonical tag d)
    (hk : ∀ a, Parses (k a) fun c y => ∀ x, tag a = .ok x → e c = .ok (x ++ y)) :
    Canonical e (d >>= k) := by
  refine (Parses.bind hd hk).mono ?_
  rintro c z ⟨a, x, y, hx, hy, rfl⟩
  exact hy x hx

/-! ## Recovered values -/

/-- The decoder finds a value wherever a string, if it is one, stands. -/
def Recovers (d : Decoding ε σ α) (s : Except ε (List σ)) (a : α) : Prop :=
  ∀ l x r, s = .ok x → d (l ++ (x ++ r)) l.length = .ok (some (a, x.length))

theorem Recovers.pure {a : α} {s : Except ε (List σ)} (hs : s = .ok []) :
    Recovers (pure a : Decoding ε σ α) s a := by
  intro l x r hx
  obtain rfl := Except.ok.inj (hs.symm.trans hx)
  exact Decoding.pure_eq_ok.mpr ⟨rfl, rfl⟩

/-- Strings back to back are read one after the other. -/
theorem Recovers.bind {d : Decoding ε σ α} {k : α → Decoding ε σ β} {s t u : Except ε (List σ)}
    {a : α} {c : β} (hd : Recovers d s a) (hk : Recovers (k a) t c)
    (hu : ∀ z, u = .ok z → ∃ x y, s = .ok x ∧ t = .ok y ∧ z = x ++ y) : Recovers (d >>= k) u c := by
  intro l z r hz
  obtain ⟨x, y, hx, hy, rfl⟩ := hu z hz
  have h1 := hd l x (y ++ r) hx
  have h2 := hk (l ++ x) y r hy
  rw [List.length_append, List.append_assoc] at h2
  rw [List.append_assoc]
  exact Decoding.bind_eq_ok.mpr ⟨a, x.length, y.length, h1, h2, List.length_append.symm⟩

theorem Recovers.map {d : Decoding ε σ α} {s : Except ε (List σ)} {a : α} {g : α → β}
    (hd : Recovers d s a) : Recovers (d >>= fun a => Pure.pure (g a)) s (g a) := by
  refine Recovers.bind hd (Recovers.pure (s := .ok []) rfl) fun z hz => ?_
  exact ⟨z, [], hz, rfl, (List.append_nil z).symm⟩

theorem Recovers.filterMap {d : Decoding ε σ α} {s : Except ε (List σ)} {a : α} {c : β}
    {f : α → Option β} (hd : Recovers d s a) (hf : f a = some c) :
    Recovers (Decoding.filterMap d f) s c := by
  intro l x r hx
  exact Decoding.filterMap_eq_ok.mpr ⟨a, hd l x r hx, hf⟩

theorem recovers_nil {a : α} :
    Recovers (pure a : Decoding ε σ α) (concat ([] : List (Encoding ε σ α)) a) a :=
  Recovers.pure (concat_nil a)

theorem Recovers.field {e : Encoding ε σ α} {d : Decoding ε σ α} {f : γ → α}
    {es : List (Encoding ε σ γ)} {k : α → Decoding ε σ γ} {c : γ} (hd : Recovers d (e (f c)) (f c))
    (hk : Recovers (k (f c)) (concat es c) c) :
    Recovers (d >>= k) (concat ((fun c => e (f c)) :: es) c) c :=
  Recovers.bind hd hk fun _ hz => concat_cons_eq_ok.mp hz

/-! ## Confined decoders -/

/-- A decoder that fails only in expected ways, takes no more than there is, and finds
what it finds from what it takes, whatever stands around it. -/
structure Confined (E : ε → Prop) (d : Decoding ε σ α) : Prop where
  fails : ∀ {b offset e}, offset ≤ b.length → d b offset = .error e → E e
  takes : ∀ {b offset a len}, offset ≤ b.length → d b offset = .ok (some (a, len)) →
    offset + len ≤ b.length
  reads : ∀ {b offset a len}, offset ≤ b.length → d b offset = .ok (some (a, len)) →
    ∀ l r, d (l ++ ((b.drop offset).take len ++ r)) l.length = .ok (some (a, len))

theorem Confined.pure {E : ε → Prop} (a : α) : Confined E (pure a : Decoding ε σ α) where
  fails _ h := nomatch h
  takes hle h := by
    obtain ⟨-, rfl⟩ := Decoding.pure_eq_ok.mp h
    exact hle
  reads _ h _ _ := Decoding.pure_eq_ok.mpr (Decoding.pure_eq_ok.mp h)

theorem Confined.nothing {E : ε → Prop} : Confined E (Decoding.nothing : Decoding ε σ α) where
  fails _ h := nomatch h
  takes _ h := nomatch h
  reads _ h := nomatch h

/-- The second decoder takes what it takes behind the first. -/
theorem Confined.bind {E : ε → Prop} {d : Decoding ε σ α} {k : α → Decoding ε σ β}
    (hd : Confined E d) (hk : ∀ a, Confined E (k a)) : Confined E (d >>= k) where
  fails {b offset e} hle h := by
    cases ha : d b offset with
    | error e' =>
      simp only [Bind.bind, Decoding.flatMap, ha, Except.error.injEq] at h
      exact h ▸ hd.fails hle ha
    | ok o =>
      cases o with
      | none => simp [Bind.bind, Decoding.flatMap, ha] at h
      | some p =>
        obtain ⟨a, m⟩ := p
        cases hc : k a b (offset + m) with
        | error e' =>
          simp only [Bind.bind, Decoding.flatMap, ha, hc, Except.error.injEq] at h
          exact h ▸ (hk a).fails (hd.takes hle ha) hc
        | ok o => cases o <;> simp [Bind.bind, Decoding.flatMap, ha, hc] at h
  takes hle h := by
    obtain ⟨a, m, n, ha, hc, rfl⟩ := Decoding.bind_eq_ok.mp h
    have := (hk a).takes (hd.takes hle ha) hc
    omega
  reads {b offset c len} hle h l r := by
    obtain ⟨a, m, n, ha, hc, rfl⟩ := Decoding.bind_eq_ok.mp h
    have hm := hd.takes hle ha
    have hlen : ((b.drop offset).take m).length = m := by
      rw [List.length_take, List.length_drop]
      omega
    have hsplit : (b.drop offset).take (m + n) =
        (b.drop offset).take m ++ (b.drop (offset + m)).take n := by
      rw [List.take_add, List.drop_drop]
    rw [hsplit, List.append_assoc]
    have hfirst := hd.reads hle ha l ((b.drop (offset + m)).take n ++ r)
    have hsecond := (hk a).reads hm hc (l ++ (b.drop offset).take m) r
    rw [List.length_append, hlen, List.append_assoc] at hsecond
    exact Decoding.bind_eq_ok.mpr ⟨a, m, n, hfirst, hsecond, rfl⟩

theorem Confined.filterMap {E : ε → Prop} {d : Decoding ε σ α} {f : α → Option β}
    (h : Confined E d) : Confined E (Decoding.filterMap d f) where
  fails {b offset e} hle hd := by
    cases ha : d b offset with
    | error e' =>
      simp only [Decoding.filterMap, ha, Except.error.injEq] at hd
      exact hd ▸ h.fails hle ha
    | ok o => cases o <;> simp [Decoding.filterMap, ha] at hd
  takes hle hd := by
    obtain ⟨a, ha, -⟩ := Decoding.filterMap_eq_ok.mp hd
    exact h.takes hle ha
  reads hle hd l r := by
    obtain ⟨a, ha, hf⟩ := Decoding.filterMap_eq_ok.mp hd
    exact Decoding.filterMap_eq_ok.mpr ⟨a, h.reads hle ha l r, hf⟩

/-- A canonical decoder that recovers every value takes the value's encoding and
nothing else. -/
theorem Canonical.confined {E : ε → Prop} {e : Encoding ε σ α} {d : Decoding ε σ α}
    (hc : Canonical e d) (hr : ∀ a, Recovers d (e a) a)
    (hfails : ∀ {b offset err}, offset ≤ b.length → d b offset = .error err → E err) :
    Confined E d where
  fails := hfails
  takes hle h := by
    obtain ⟨x, -, rfl, hpre⟩ := hc _ _ _ _ hle h
    have := hpre.length_le
    rw [List.length_drop] at this
    omega
  reads hle h l r := by
    obtain ⟨x, hx, rfl, hpre⟩ := hc _ _ _ _ hle h
    rw [← List.prefix_iff_eq_take.mp hpre]
    exact hr _ l x r hx

end PrefixCode
