import WebcryptoMls.MlsError
import WebcryptoMls.PrefixCode

/-!
# TLS presentation language encoders

Byte strings are lists of bytes. An encoder returns the bytes or throws a
`CodecError`: integers are range checked and a length must fit thirty bits. A
`uint64` is written as its low 64 bits, unchecked. Every encoder of this module
is prefix free, whatever it is given.
-/
namespace WebcryptoMls
open PrefixCode

abbrev Bytes := List UInt8

abbrev Encoder (α : Type) := Encoding MlsError UInt8 α

/-- The low `w` bytes of a number, most significant first. -/
def bigEndian : ℕ → ℕ → Bytes
  | 0, _ => []
  | w + 1, n => UInt8.ofNat (n / 256 ^ w) :: bigEndian w n

def assertUintRange (n : ℤ) (bits : ℕ) : Except MlsError Unit :=
  let max : ℤ := 2 ^ bits - 1
  if n < 0 ∨ n > max then
    throw (codecError (s!"Cannot encode {n} as an unsigned {bits}-bit integer: " ++
      s!"must be an integer in range [0, {max}]"))
  else pure ()

/-- `setUint8`, `setUint16` and `setUint32` behind their range check. -/
def encodeUint (width : ℕ) : Encoder ℤ := fun n => do
  assertUintRange n (8 * width)
  pure (bigEndian width n.toNat)

def encodeUint8 : Encoder ℤ := encodeUint 1

def encodeUint16 : Encoder ℤ := encodeUint 2

def encodeUint32 : Encoder ℤ := encodeUint 4

/-- `setBigUint64` keeps the low 64 bits of any number. -/
def encodeUint64 : Encoder ℤ := fun n => pure (bigEndian 8 (n % 2 ^ 64).toNat)

def encodeLength (len : ℕ) : Except MlsError Bytes :=
  if len < 64 then pure [UInt8.ofNat (len &&& 0b00111111)]
  else if len < 16384 then
    pure [UInt8.ofNat (((len >>> 8) &&& 0b00111111) ||| 0b01000000), UInt8.ofNat (len &&& 0xff)]
  else if len < 0x40000000 then
    pure [UInt8.ofNat (((len >>> 24) &&& 0b00111111) ||| 0b10000000),
      UInt8.ofNat ((len >>> 16) &&& 0xff), UInt8.ofNat ((len >>> 8) &&& 0xff),
      UInt8.ofNat (len &&& 0xff)]
  else throw (codecError "Length too large to encode (max is 2^30 - 1)")

def encodeVarLenData : Encoder Bytes := fun data => do
  let lenBytes ← encodeLength data.length
  pure (lenBytes ++ data)

def encodeVarLenType {α : Type} (enc : Encoder α) : Encoder (List α) := fun data => do
  let encodedParts ← items enc data
  let lengthHeader ← encodeLength encodedParts.length
  pure (lengthHeader ++ encodedParts)

def encodeOptional {α : Type} (encodeT : Encoder α) : Encoder (Option α)
  | some t => do
    let v ← encodeT t
    pure (0x1 :: v)
  | none => pure [0x0]

def contramapEncoder {α β : Type} (enc : Encoder α) (f : β → α) : Encoder β := fun b => enc (f b)

def contramapEncoders {α : Type} (encoders : List (Encoder α)) : Encoder α := concat encoders

/-! ## Prefix freeness -/

theorem length_bigEndian (w n : ℕ) : (bigEndian w n).length = w := by
  induction w with
  | zero => rfl
  | succ w ih => rw [bigEndian, List.length_cons, ih]

theorem bigEndian_inj {w n m : ℕ} (hn : n < 256 ^ w) (hm : m < 256 ^ w)
    (h : bigEndian w n = bigEndian w m) : n = m := by
  have key : ∀ w, bigEndian w n = bigEndian w m → n % 256 ^ w = m % 256 ^ w := by
    intro w
    induction w with
    | zero => intro _; omega
    | succ w ih =>
      intro h
      rw [bigEndian, bigEndian, List.cons.injEq] at h
      have hlow := ih h.2
      have hb : n / 256 ^ w % 256 = m / 256 ^ w % 256 := by
        have := congrArg UInt8.toNat h.1
        simpa using this
      rw [pow_succ, Nat.mod_mul, Nat.mod_mul, hlow, hb]
  have := key w h
  rwa [Nat.mod_eq_of_lt hn, Nat.mod_eq_of_lt hm] at this

theorem encodeUint_eq_ok {w : ℕ} {n : ℤ} {x : Bytes} (h : encodeUint w n = .ok x) :
    0 ≤ n ∧ n < 2 ^ (8 * w) ∧ x = bigEndian w n.toNat := by
  simp only [encodeUint, assertUintRange] at h
  split at h
  · simp [throw, throwThe, MonadExceptOf.throw, bind, Except.bind] at h
  · simp only [bind, Except.bind, pure, Except.pure, Except.ok.injEq] at h
    exact ⟨by omega, by omega, h.symm⟩

theorem encodeUint_inj {w : ℕ} {n m : ℤ} {x : Bytes} (hn : encodeUint w n = .ok x)
    (hm : encodeUint w m = .ok x) : n = m := by
  obtain ⟨hn0, hnw, rfl⟩ := encodeUint_eq_ok hn
  obtain ⟨hm0, hmw, h⟩ := encodeUint_eq_ok hm
  have e : (2 : ℕ) ^ (8 * w) = 256 ^ w := by rw [pow_mul]; norm_num
  have hbound : ∀ k : ℤ, 0 ≤ k → k < 2 ^ (8 * w) → k.toNat < 256 ^ w := by
    intro k hk hkw
    rw [← e]
    have : (k.toNat : ℤ) < (2 ^ (8 * w) : ℕ) := by push_cast; omega
    exact_mod_cast this
  have := bigEndian_inj (hbound n hn0 hnw) (hbound m hm0 hmw) h
  omega

theorem prefixFree_encodeUint (w : ℕ) : PrefixFree (encodeUint w) := by
  apply prefixFree_of_length w
  intro n x h
  rw [(encodeUint_eq_ok h).2.2, length_bigEndian]

theorem prefixFree_encodeUint64 : PrefixFree encodeUint64 := by
  apply prefixFree_of_length 8
  intro n x h
  simp only [encodeUint64, pure, Except.pure, Except.ok.injEq] at h
  rw [← h, length_bigEndian]

theorem and_mask (n k : ℕ) : n &&& (2 ^ k - 1) = n % 2 ^ k := Nat.and_two_pow_sub_one_eq_mod n k

/-- The two tag bits of a length sit above its leading six bits. -/
theorem or_tag {n t : ℕ} (hn : n < 64) : n ||| 64 * t = n + 64 * t := by
  have h := Nat.two_pow_add_eq_or_of_lt (i := 6) hn t
  rw [Nat.or_comm, ← h]
  ring

theorem encodeLength_eq_ok {len : ℕ} {x : Bytes} (h : encodeLength len = .ok x) :
    (len < 64 ∧ x = [UInt8.ofNat len]) ∨
    (len < 16384 ∧ x = [UInt8.ofNat (len / 256 + 64), UInt8.ofNat (len % 256)]) ∨
    (len < 2 ^ 30 ∧ x = [UInt8.ofNat (len / 2 ^ 24 + 128), UInt8.ofNat (len / 2 ^ 16 % 256),
      UInt8.ofNat (len / 256 % 256), UInt8.ofNat (len % 256)]) := by
  have m6 : ∀ n, n &&& 0b00111111 = n % 64 := fun n => and_mask n 6
  have m8 : ∀ n, n &&& 0xff = n % 256 := fun n => and_mask n 8
  simp only [encodeLength, m6, m8, Nat.shiftRight_eq_div_pow] at h
  split_ifs at h with h1 h2 h3
  · simp only [pure, Except.pure, Except.ok.injEq] at h
    exact .inl ⟨h1, by rw [← h, Nat.mod_eq_of_lt h1]⟩
  · simp only [pure, Except.pure, Except.ok.injEq] at h
    refine .inr (.inl ⟨h2, ?_⟩)
    rw [← h, show 0b01000000 = 64 * 1 by rfl, or_tag (by omega), Nat.mod_eq_of_lt (by omega)]
  · simp only [pure, Except.pure, Except.ok.injEq] at h
    refine .inr (.inr ⟨by omega, ?_⟩)
    rw [← h, show 0b10000000 = 64 * 2 by rfl, or_tag (by omega), Nat.mod_eq_of_lt (by omega)]

theorem ofNat_inj {a b : ℕ} (ha : a < 256) (hb : b < 256) (h : UInt8.ofNat a = UInt8.ofNat b) :
    a = b := by
  have := congrArg UInt8.toNat h
  simp only [UInt8.toNat_ofNat'] at this
  omega

/-- The leading two bits of a length tell how many bytes it takes. -/
theorem encodeLength_rest {m n : ℕ} {x y r s : Bytes} (hm : encodeLength m = .ok x)
    (hn : encodeLength n = .ok y) (h : x ++ r = y ++ s) : m = n ∧ r = s := by
  have inj := @ofNat_inj
  rcases encodeLength_eq_ok hm with ⟨bm, rfl⟩ | ⟨bm, rfl⟩ | ⟨bm, rfl⟩ <;>
  rcases encodeLength_eq_ok hn with ⟨bn, rfl⟩ | ⟨bn, rfl⟩ | ⟨bn, rfl⟩ <;>
  simp only [List.cons_append, List.nil_append, List.cons.injEq] at h
  · exact ⟨inj (by omega) (by omega) h.1, h.2⟩
  · exact absurd (inj (by omega) (by omega) h.1) (by omega)
  · exact absurd (inj (by omega) (by omega) h.1) (by omega)
  · exact absurd (inj (by omega) (by omega) h.1) (by omega)
  · obtain ⟨h1, h2, h3⟩ := h
    have e1 := inj (by omega) (by omega) h1
    have e2 := inj (by omega) (by omega) h2
    exact ⟨by omega, h3⟩
  · exact absurd (inj (by omega) (by omega) h.1) (by omega)
  · exact absurd (inj (by omega) (by omega) h.1) (by omega)
  · exact absurd (inj (by omega) (by omega) h.1) (by omega)
  · obtain ⟨h1, h2, h3, h4, h5⟩ := h
    have e1 := inj (by omega) (by omega) h1
    have e2 := inj (by omega) (by omega) h2
    have e3 := inj (by omega) (by omega) h3
    have e4 := inj (by omega) (by omega) h4
    exact ⟨by omega, h5⟩

theorem encodeVarLenData_eq_ok {data x : Bytes} :
    encodeVarLenData data = .ok x ↔ ∃ len, encodeLength data.length = .ok len ∧ x = len ++ data := by
  rw [encodeVarLenData, bind_eq_ok]
  simp [pure, Except.pure, eq_comm]

/-- A length-prefixed string ends where its length says. -/
theorem encodeVarLenData_rest {a b x y r s : Bytes} (ha : encodeVarLenData a = .ok x)
    (hb : encodeVarLenData b = .ok y) (h : x ++ r = y ++ s) : a = b ∧ r = s := by
  obtain ⟨la, hla, rfl⟩ := encodeVarLenData_eq_ok.mp ha
  obtain ⟨lb, hlb, rfl⟩ := encodeVarLenData_eq_ok.mp hb
  rw [List.append_assoc, List.append_assoc] at h
  obtain ⟨hlen, hrest⟩ := encodeLength_rest hla hlb h
  exact List.append_inj hrest hlen

theorem encodeVarLenData_inj {a b x : Bytes} (ha : encodeVarLenData a = .ok x)
    (hb : encodeVarLenData b = .ok x) : a = b :=
  (encodeVarLenData_rest (r := []) (s := []) ha hb rfl).1

theorem prefixFree_encodeVarLenData : PrefixFree encodeVarLenData := by
  intro a b x y r s ha hb h
  obtain ⟨rfl, -⟩ := encodeVarLenData_rest ha hb h
  exact Except.ok.inj (ha.symm.trans hb)

theorem encodeVarLenType_eq_ok {α : Type} {enc : Encoder α} {l : List α} {x : Bytes} :
    encodeVarLenType enc l = .ok x ↔
      ∃ body, items enc l = .ok body ∧ encodeVarLenData body = .ok x :=
  bind_eq_ok

theorem prefixFree_encodeVarLenType {α : Type} (enc : Encoder α) :
    PrefixFree (encodeVarLenType enc) := by
  intro a b x y r s ha hb h
  obtain ⟨ba, -, hx⟩ := encodeVarLenType_eq_ok.mp ha
  obtain ⟨bb, -, hy⟩ := encodeVarLenType_eq_ok.mp hb
  exact prefixFree_encodeVarLenData ba bb x y r s hx hy h

theorem prefixFree_encodeOptional {α : Type} {enc : Encoder α} (he : PrefixFree enc) :
    PrefixFree (encodeOptional enc) := by
  have some_ok : ∀ {t : α} {x : Bytes}, encodeOptional enc (some t) = .ok x →
      ∃ v, enc t = .ok v ∧ x = 0x1 :: v := by
    intro t x h
    obtain ⟨v, hv, h⟩ := bind_eq_ok.mp h
    exact ⟨v, hv, (Except.ok.inj h).symm⟩
  have none_ok : ∀ {x : Bytes}, encodeOptional enc none = .ok x → x = [0x0] :=
    fun h => (Except.ok.inj h).symm
  intro a b x y r s ha hb h
  cases a with
  | none =>
    obtain rfl := none_ok ha
    cases b with
    | none => rw [none_ok hb]
    | some b =>
      obtain ⟨v, -, rfl⟩ := some_ok hb
      simp at h
  | some a =>
    obtain ⟨u, hu, rfl⟩ := some_ok ha
    cases b with
    | none =>
      obtain rfl := none_ok hb
      simp at h
    | some b =>
      obtain ⟨v, hv, rfl⟩ := some_ok hb
      simp only [List.cons_append, List.cons.injEq, true_and] at h
      rw [he a b u v r s hu hv h]

/-- The presence octet and the value are both determined. -/
theorem encodeOptional_some_inj {α : Type} {enc : Encoder α} {a : α} {o : Option α} {x : Bytes}
    (ha : encodeOptional enc (some a) = .ok x) (ho : encodeOptional enc o = .ok x) :
    ∃ b, o = some b ∧ enc a = enc b := by
  obtain ⟨u, hu, hx⟩ := bind_eq_ok.mp ha
  have hx := Except.ok.inj hx
  cases o with
  | none =>
    have := Except.ok.inj ho
    rw [← this] at hx
    simp at hx
  | some b =>
    obtain ⟨v, hv, hy⟩ := bind_eq_ok.mp ho
    have hy := Except.ok.inj hy
    rw [← hy] at hx
    simp only [List.cons.injEq, true_and] at hx
    exact ⟨b, rfl, by rw [hu, hv, hx]⟩

end WebcryptoMls
