import WebcryptoMls.Codec
import WebcryptoMls.Decoding

/-!
# TLS presentation language decoders

The decoders of the encoders in `Codec`. A read past the end finds nothing, but a
length that runs past the end, or one not written in its shortest form, is a
`CodecError`. Each decoder here is canonical for its encoder and recovers every
value in the encoder's range.
-/
namespace WebcryptoMls
open PrefixCode

abbrev Decoder := Decoding MlsError UInt8

def mapDecoder {α β : Type} (dec : Decoder α) (f : α → β) : Decoder β := do
  let t ← dec
  pure (f t)

def mapDecoderOption {α β : Type} (dec : Decoder α) (f : α → Option β) : Decoder β :=
  Decoding.filterMap dec f

def flatMapDecoder {α β : Type} (dec : Decoder α) (f : α → Decoder β) : Decoder β := dec >>= f

def succeedDecoder {α : Type} (t : α) : Decoder α := pure t

/-- The first decoder, and the second where the first finds nothing. -/
def orDecoder {α : Type} (decT decU : Decoder α) : Decoder α := fun b offset =>
  match decT b offset with
  | .error e => .error e
  | .ok (some t) => .ok (some t)
  | .ok none => decU b offset

/-- The number some bytes write, most significant first. -/
def fromBigEndian (b : Bytes) : ℕ := b.foldl (fun n byte => n * 256 + byte.toNat) 0

/-- `getUint8`, `getUint16`, `getUint32` and `getBigUint64`: nothing is found
where the bytes run out. -/
def decodeUint (width : ℕ) : Decoder ℤ := fun b offset =>
  if offset + width ≤ b.length then
    pure (some (fromBigEndian ((b.drop offset).take width), width))
  else pure none

def decodeUint8 : Decoder ℤ := decodeUint 1

def decodeUint16 : Decoder ℤ := decodeUint 2

def decodeUint32 : Decoder ℤ := decodeUint 4

def decodeUint64 : Decoder ℤ := decodeUint 8

/-- `data[i]` as a number, read behind a length check. -/
def byteAt (data : Bytes) (i : ℕ) : ℕ := (data[i]?.getD 0).toNat

/-- A length and the number of bytes that write it. -/
def determineLength (data : Bytes) (offset : ℕ) : Except MlsError (ℕ × ℕ) :=
  if offset ≥ data.length then throw (codecError "Offset beyond buffer")
  else
    let firstByte := byteAt data offset
    let tag := firstByte >>> 6
    if tag = 0 then pure (firstByte &&& 0b00111111, 1)
    else if tag = 1 then
      if offset + 2 > data.length then throw (codecError "Incomplete 2-byte length")
      else
        let length := ((firstByte &&& 0b00111111) <<< 8) ||| byteAt data (offset + 1)
        if length < 64 then throw (codecError "Non-minimal 2-byte length encoding")
        else pure (length, 2)
    else if tag = 2 then
      if offset + 4 > data.length then throw (codecError "Incomplete 4-byte length")
      else
        let length := ((((firstByte &&& 0b00111111) <<< 24) ||| (byteAt data (offset + 1) <<< 16)) |||
          (byteAt data (offset + 2) <<< 8)) ||| byteAt data (offset + 3)
        if length < 16384 then throw (codecError "Non-minimal 4-byte length encoding")
        else pure (length, 4)
    else throw (codecError "8-byte length not supported in this implementation")

def decodeVarLenData : Decoder Bytes := fun buf offset =>
  if offset ≥ buf.length then throw (codecError "Offset beyond buffer")
  else do
    let (length, lengthFieldSize) ← determineLength buf offset
    let totalBytes := lengthFieldSize + length
    if offset + totalBytes > buf.length then throw (codecError "Data length exceeds buffer")
    else pure (some ((buf.drop (offset + lengthFieldSize)).take length, totalBytes))

/-- The loop of `decodeVarLenType`. Every item takes a byte or more, so there are
no more rounds than bytes. -/
def decodeVarLenTypeLoop {α : Type} (dec : Decoder α) (totalBytes : Bytes) :
    ℕ → ℕ → Except MlsError (Option (List α))
  | 0, cursor => if cursor < totalBytes.length then throw (nonTermination "decodeVarLenType")
    else pure (some [])
  | fuel + 1, cursor =>
    if cursor < totalBytes.length then
      match dec totalBytes cursor with
      | .error e => .error e
      | .ok none => .ok none
      | .ok (some (value, len)) =>
        if len = 0 then .ok none
        else match decodeVarLenTypeLoop dec totalBytes fuel (cursor + len) with
          | .error e => .error e
          | .ok none => .ok none
          | .ok (some result) => .ok (some (value :: result))
    else pure (some [])

def decodeVarLenType {α : Type} (dec : Decoder α) : Decoder (List α) := fun b offset =>
  match decodeVarLenData b offset with
  | .error e => .error e
  | .ok none => .ok none
  | .ok (some (totalBytes, totalLength)) =>
    match decodeVarLenTypeLoop dec totalBytes totalBytes.length 0 with
    | .error e => .error e
    | .ok none => .ok none
    | .ok (some result) => .ok (some (result, totalLength))

/-- The presence octet, then the value if there is one. -/
def decodeOptional {α : Type} (decodeT : Decoder α) : Decoder (Option α) :=
  flatMapDecoder decodeUint8 fun presenceOctet =>
    if presenceOctet = 1 then mapDecoder decodeT some
    else if presenceOctet = 0 then succeedDecoder none
    else Decoding.nothing

/-- The name with a number, for the names of a closed enumeration. -/
def enumNumberToKey {S : Type} (names : List S) (t : S → ℤ) (n : ℤ) : Option S :=
  names.find? fun s => t s == n

/-- An open enumeration names every number. -/
def openEnumNumberToKey {S : Type} (names : List S) (t : S → ℤ) (other : ℤ → S) (n : ℤ) : S :=
  (enumNumberToKey names t n).getD (other n)

/-! ## Integers -/

theorem foldl_bigEndian (b : Bytes) (n : ℕ) :
    b.foldl (fun n byte => n * 256 + byte.toNat) n = n * 256 ^ b.length + fromBigEndian b := by
  unfold fromBigEndian
  induction b generalizing n with
  | nil => simp
  | cons byte b ih =>
    rw [List.foldl_cons, ih, List.foldl_cons, ih (0 * 256 + byte.toNat), List.length_cons]
    ring

theorem fromBigEndian_cons (byte : UInt8) (b : Bytes) :
    fromBigEndian (byte :: b) = byte.toNat * 256 ^ b.length + fromBigEndian b := by
  rw [fromBigEndian, List.foldl_cons, foldl_bigEndian]
  ring

theorem fromBigEndian_lt (b : Bytes) : fromBigEndian b < 256 ^ b.length := by
  induction b with
  | nil => simp [fromBigEndian]
  | cons byte b ih =>
    rw [fromBigEndian_cons, List.length_cons, pow_succ]
    have := byte.toNat_lt
    nlinarith [Nat.mul_le_mul_right (256 ^ b.length) (show byte.toNat ≤ 255 by omega)]

/-- Higher bytes do not change the low ones. -/
theorem bigEndian_add (w a n : ℕ) : bigEndian w (a * 256 ^ w + n) = bigEndian w n := by
  have key : ∀ v ≤ w, bigEndian v (a * 256 ^ w + n) = bigEndian v n := by
    intro v
    induction v with
    | zero => intro _; rfl
    | succ v ih =>
      intro hv
      rw [bigEndian, bigEndian, ih (by omega)]
      congr 1
      apply UInt8.toNat_inj.mp
      have e : a * 256 ^ w = 256 ^ v * (256 * (a * 256 ^ (w - v - 1))) := by
        rw [show w = v + (1 + (w - v - 1)) by omega, pow_add, pow_add]
        simp only [show v + (1 + (w - v - 1)) - v - 1 = w - v - 1 by omega]
        ring
      rw [UInt8.toNat_ofNat', UInt8.toNat_ofNat', e, Nat.mul_add_div (by positivity)]
      omega
  exact key w le_rfl

/-- Writing a number and reading it are inverse. -/
theorem bigEndian_fromBigEndian (b : Bytes) : bigEndian b.length (fromBigEndian b) = b := by
  induction b with
  | nil => rfl
  | cons byte b ih =>
    have hlt := fromBigEndian_lt b
    have hp : 0 < 256 ^ b.length := by positivity
    rw [fromBigEndian_cons, List.length_cons, bigEndian, bigEndian_add, ih]
    congr 1
    rw [Nat.mul_comm, Nat.mul_add_div hp, Nat.div_eq_of_lt hlt]
    simp

theorem fromBigEndian_bigEndian (w n : ℕ) (hn : n < 256 ^ w) : fromBigEndian (bigEndian w n) = n := by
  have h := bigEndian_fromBigEndian (bigEndian w n)
  have hl := fromBigEndian_lt (bigEndian w n)
  rw [length_bigEndian] at h hl
  exact bigEndian_inj hl hn h

theorem two_pow_eight_mul (w : ℕ) : (2 : ℕ) ^ (8 * w) = 256 ^ w := by
  rw [pow_mul]
  norm_num

theorem encodeUint_of_lt {w n : ℕ} (h : n < 256 ^ w) : encodeUint w n = .ok (bigEndian w n) := by
  have hn : (n : ℤ) < 2 ^ (8 * w) := by
    rw [← two_pow_eight_mul] at h
    exact_mod_cast h
  have hrange : ¬((n : ℤ) < 0 ∨ (n : ℤ) > 2 ^ (8 * w) - 1) := by omega
  rw [encodeUint, assertUintRange, if_neg hrange]
  rfl

theorem decodeUint_eq_ok {w : ℕ} {b : Bytes} {offset len : ℕ} {n : ℤ} :
    decodeUint w b offset = .ok (some (n, len)) ↔
      offset + w ≤ b.length ∧ (fromBigEndian ((b.drop offset).take w) : ℤ) = n ∧ w = len := by
  unfold decodeUint
  split_ifs with h <;> simp [h, pure, Except.pure]

theorem canonical_uint_aux (w : ℕ) : Parses (decodeUint w) fun n x =>
    ∃ m : ℕ, n = m ∧ m < 256 ^ w ∧ x = bigEndian w m := by
  intro b offset n len _ h
  obtain ⟨hle, rfl, rfl⟩ := decodeUint_eq_ok.mp h
  have hlen : ((b.drop offset).take w).length = w := by
    rw [List.length_take, List.length_drop]
    omega
  have hlt := fromBigEndian_lt ((b.drop offset).take w)
  have heq := bigEndian_fromBigEndian ((b.drop offset).take w)
  rw [hlen] at hlt heq
  exact ⟨_, ⟨_, rfl, hlt, rfl⟩, length_bigEndian w _, by rw [heq]; exact List.take_prefix ..⟩

theorem canonical_uint (w : ℕ) : Canonical (encodeUint w) (decodeUint w) := by
  apply (canonical_uint_aux w).mono
  rintro n x ⟨m, rfl, hm, rfl⟩
  exact encodeUint_of_lt hm

theorem decodeUint_bigEndian (w n : ℕ) (hn : n < 256 ^ w) (l r : Bytes) :
    decodeUint w (l ++ (bigEndian w n ++ r)) l.length = .ok (some ((n : ℤ), w)) := by
  rw [decodeUint_eq_ok, List.drop_left]
  have hw := length_bigEndian w n
  refine ⟨by simp [hw], ?_, rfl⟩
  rw [List.take_left' hw, fromBigEndian_bigEndian w n hn]

theorem recovers_uint (w : ℕ) (n : ℤ) : Recovers (decodeUint w) (encodeUint w n) n := by
  intro l x r h
  obtain ⟨hn, hlt, rfl⟩ := encodeUint_eq_ok h
  obtain ⟨m, rfl⟩ := Int.eq_ofNat_of_zero_le hn
  rw [length_bigEndian]
  apply decodeUint_bigEndian
  rw [← two_pow_eight_mul]
  exact_mod_cast hlt

/-- A number a field holds as a natural. -/
theorem canonical_uint_toNat (w : ℕ) :
    Canonical (fun n : ℕ => encodeUint w n) (mapDecoder (decodeUint w) Int.toNat) := by
  apply (canonical_uint_aux w).map
  rintro n x ⟨m, rfl, hm, rfl⟩
  exact encodeUint_of_lt hm

theorem recovers_uint_toNat (w : ℕ) (n : ℕ) :
    Recovers (mapDecoder (decodeUint w) Int.toNat) (encodeUint w n) n :=
  (recovers_uint w n).map (g := Int.toNat)

theorem canonical_uint64 : Canonical encodeUint64 decodeUint64 := by
  apply (canonical_uint_aux 8).mono
  rintro n x ⟨m, rfl, hm, rfl⟩
  have hmod : ((m : ℤ) % 2 ^ 64).toNat = m := by omega
  rw [encodeUint64, hmod]
  rfl

theorem recovers_uint64 {n : ℤ} (hn : 0 ≤ n) (hlt : n < 2 ^ 64) :
    Recovers decodeUint64 (encodeUint64 n) n := by
  intro l x r h
  obtain ⟨m, rfl⟩ := Int.eq_ofNat_of_zero_le hn
  have hmod : ((m : ℤ) % 2 ^ 64).toNat = m := by omega
  rw [encodeUint64, hmod] at h
  obtain rfl := Except.ok.inj h
  rw [length_bigEndian]
  exact decodeUint_bigEndian 8 m (by omega) l r

/-! ## Lengths -/

theorem and_63 (n : ℕ) : n &&& 0b00111111 = n % 64 := and_mask n 6

theorem and_255 (n : ℕ) : n &&& 0xff = n % 256 := and_mask n 8

theorem encodeLength_short {len : ℕ} (h : len < 64) : encodeLength len = .ok [UInt8.ofNat len] := by
  rw [encodeLength, if_pos h, and_63, Nat.mod_eq_of_lt h]
  rfl

theorem encodeLength_medium {len : ℕ} (h : 64 ≤ len) (hlt : len < 16384) :
    encodeLength len = .ok [UInt8.ofNat (len / 256 + 64), UInt8.ofNat (len % 256)] := by
  obtain ⟨x, hx⟩ : ∃ x, encodeLength len = .ok x := by
    rw [encodeLength, if_neg (by omega), if_pos hlt]
    exact ⟨_, rfl⟩
  rcases encodeLength_eq_ok hx with ⟨hl, -⟩ | ⟨-, rfl⟩ | ⟨-, -⟩
  · omega
  · exact hx
  · rw [encodeLength, if_neg (by omega), if_pos hlt, and_63, and_255,
      Nat.shiftRight_eq_div_pow, show 0b01000000 = 64 * 1 by rfl, or_tag (by omega),
      Nat.mod_eq_of_lt (by omega)]
    rfl

theorem encodeLength_long {len : ℕ} (h : 16384 ≤ len) (hlt : len < 2 ^ 30) :
    encodeLength len = .ok [UInt8.ofNat (len / 2 ^ 24 + 128), UInt8.ofNat (len / 2 ^ 16 % 256),
      UInt8.ofNat (len / 256 % 256), UInt8.ofNat (len % 256)] := by
  rw [encodeLength, if_neg (by omega), if_neg (by omega), if_pos (by omega)]
  simp only [and_63, and_255, Nat.shiftRight_eq_div_pow]
  rw [show 0b10000000 = 64 * 2 by rfl, or_tag (by omega), Nat.mod_eq_of_lt (by omega)]
  rfl

/-- The leading byte of a drop. -/
theorem drop_eq_byteAt_cons {data : Bytes} {i : ℕ} (h : i < data.length) :
    data.drop i = UInt8.ofNat (byteAt data i) :: data.drop (i + 1) := by
  rw [List.drop_eq_getElem_cons h, byteAt, List.getElem?_eq_getElem h, Option.getD_some,
    UInt8.ofNat_toNat]

theorem byteAt_lt (data : Bytes) (i : ℕ) : byteAt data i < 256 := UInt8.toNat_lt _

/-- The two bytes of a length as one number. -/
theorem two_byte_length {a b : ℕ} (hb : b < 256) :
    ((a % 64) <<< 8) ||| b = a % 64 * 256 + b := by
  rw [← Nat.shiftLeft_add_eq_or_of_lt (by omega), Nat.shiftLeft_eq]

theorem four_byte_length {a b c d : ℕ} (hb : b < 256) (hc : c < 256) (hd : d < 256) :
    ((((a % 64) <<< 24) ||| (b <<< 16)) ||| (c <<< 8)) ||| d =
      a % 64 * 2 ^ 24 + b * 2 ^ 16 + c * 256 + d := by
  have h1 : (a % 64) <<< 24 ||| b <<< 16 = ((a % 64) * 256 + b) <<< 16 := by
    rw [← Nat.shiftLeft_add_eq_or_of_lt (by rw [Nat.shiftLeft_eq]; omega)]
    simp only [Nat.shiftLeft_eq]
    ring
  have h2 : ((a % 64) * 256 + b) <<< 16 ||| c <<< 8 =
      (((a % 64) * 256 + b) * 256 + c) <<< 8 := by
    rw [← Nat.shiftLeft_add_eq_or_of_lt (by rw [Nat.shiftLeft_eq]; omega)]
    simp only [Nat.shiftLeft_eq]
    ring
  rw [h1, h2, ← Nat.shiftLeft_add_eq_or_of_lt (by omega), Nat.shiftLeft_eq]
  ring

/-- A length is read only where its encoding stands. -/
theorem determineLength_eq_ok {data : Bytes} {offset length size : ℕ}
    (h : determineLength data offset = .ok (length, size)) :
    ∃ x, encodeLength length = .ok x ∧ x.length = size ∧ x <+: data.drop offset := by
  have h0 := byteAt_lt data offset
  have h1 := byteAt_lt data (offset + 1)
  have h2 := byteAt_lt data (offset + 2)
  have h3 := byteAt_lt data (offset + 3)
  simp only [determineLength, and_63, two_byte_length h1, four_byte_length h1 h2 h3,
    Nat.shiftRight_eq_div_pow] at h
  generalize hb0 : byteAt data offset = b0 at *
  generalize hb1 : byteAt data (offset + 1) = b1 at *
  generalize hb2 : byteAt data (offset + 2) = b2 at *
  generalize hb3 : byteAt data (offset + 3) = b3 at *
  split_ifs at h with hoff t0 t1 e1 l1 t2 e2 l2
  · obtain ⟨rfl, rfl⟩ := Prod.mk.inj (Except.ok.inj h)
    refine ⟨_, encodeLength_short (by omega), rfl, ?_⟩
    rw [drop_eq_byteAt_cons (by omega), hb0, Nat.mod_eq_of_lt (show b0 < 64 by omega)]
    exact List.prefix_append [_] _
  · obtain ⟨rfl, rfl⟩ := Prod.mk.inj (Except.ok.inj h)
    refine ⟨_, encodeLength_medium (by omega) (by omega), rfl, ?_⟩
    rw [drop_eq_byteAt_cons (by omega), drop_eq_byteAt_cons (i := offset + 1) (by omega), hb0, hb1,
      show (b0 % 64 * 256 + b1) / 256 + 64 = b0 by omega,
      show (b0 % 64 * 256 + b1) % 256 = b1 by omega]
    exact List.prefix_append [_, _] _
  · obtain ⟨rfl, rfl⟩ := Prod.mk.inj (Except.ok.inj h)
    refine ⟨_, encodeLength_long (by omega) (by omega), rfl, ?_⟩
    rw [drop_eq_byteAt_cons (by omega), drop_eq_byteAt_cons (i := offset + 1) (by omega),
      drop_eq_byteAt_cons (i := offset + 1 + 1) (by omega),
      drop_eq_byteAt_cons (i := offset + 1 + 1 + 1) (by omega), hb0, hb1, hb2, hb3,
      show (b0 % 64 * 2 ^ 24 + b1 * 2 ^ 16 + b2 * 256 + b3) / 2 ^ 24 + 128 = b0 by omega,
      show (b0 % 64 * 2 ^ 24 + b1 * 2 ^ 16 + b2 * 256 + b3) / 2 ^ 16 % 256 = b1 by omega,
      show (b0 % 64 * 2 ^ 24 + b1 * 2 ^ 16 + b2 * 256 + b3) / 256 % 256 = b2 by omega,
      show (b0 % 64 * 2 ^ 24 + b1 * 2 ^ 16 + b2 * 256 + b3) % 256 = b3 by omega]
    exact List.prefix_append [_, _, _, _] _

theorem byteAt_append_ofNat (l r : Bytes) {n i : ℕ} (hn : n < 256) (hi : i = l.length) :
    byteAt (l ++ UInt8.ofNat n :: r) i = n := by
  rw [byteAt, hi, List.getElem?_append_right le_rfl, Nat.sub_self, List.getElem?_cons_zero,
    Option.getD_some, UInt8.toNat_ofNat', Nat.mod_eq_of_lt hn]

/-- A length is read wherever its encoding stands. -/
theorem determineLength_append {len : ℕ} {x : Bytes} (hx : encodeLength len = .ok x) (l r : Bytes) :
    determineLength (l ++ (x ++ r)) l.length = .ok (len, x.length) := by
  have hlen : l.length < (l ++ (x ++ r)).length ∧ x.length + l.length ≤ (l ++ (x ++ r)).length := by
    have hne : x ≠ [] := by
      rcases encodeLength_eq_ok hx with ⟨-, rfl⟩ | ⟨-, rfl⟩ | ⟨-, rfl⟩ <;> simp
    have := List.length_pos_of_ne_nil hne
    simp only [List.length_append]
    omega
  have hcases : (len < 64 ∧ x = [UInt8.ofNat len]) ∨
      (64 ≤ len ∧ len < 16384 ∧ x = [UInt8.ofNat (len / 256 + 64), UInt8.ofNat (len % 256)]) ∨
      (16384 ≤ len ∧ len < 2 ^ 30 ∧ x = [UInt8.ofNat (len / 2 ^ 24 + 128),
        UInt8.ofNat (len / 2 ^ 16 % 256), UInt8.ofNat (len / 256 % 256),
        UInt8.ofNat (len % 256)]) := by
    by_cases h1 : len < 64
    · exact .inl ⟨h1, Except.ok.inj (hx.symm.trans (encodeLength_short h1))⟩
    by_cases h2 : len < 16384
    · exact .inr (.inl ⟨by omega, h2,
        Except.ok.inj (hx.symm.trans (encodeLength_medium (by omega) h2))⟩)
    · have h3 : len < 2 ^ 30 := by
        rcases encodeLength_eq_ok hx with ⟨h, -⟩ | ⟨h, -⟩ | ⟨h, -⟩ <;> omega
      exact .inr (.inr ⟨by omega, h3,
        Except.ok.inj (hx.symm.trans (encodeLength_long (by omega) h3))⟩)
  rcases hcases with ⟨h, rfl⟩ | ⟨h, hlt, rfl⟩ | ⟨h, hlt, rfl⟩
  · have hb : byteAt (l ++ ([UInt8.ofNat len] ++ r)) l.length = len :=
      byteAt_append_ofNat l r (by omega) rfl
    rw [determineLength, if_neg (by omega), hb]
    simp only [and_63, Nat.shiftRight_eq_div_pow]
    rw [if_pos (by omega), Nat.mod_eq_of_lt h]
    rfl
  · have hb0 : byteAt (l ++ ([UInt8.ofNat (len / 256 + 64), UInt8.ofNat (len % 256)] ++ r))
        l.length = len / 256 + 64 := byteAt_append_ofNat l _ (by omega) rfl
    have hb1 : byteAt (l ++ ([UInt8.ofNat (len / 256 + 64), UInt8.ofNat (len % 256)] ++ r))
        (l.length + 1) = len % 256 := by
      have := byteAt_append_ofNat (l ++ [UInt8.ofNat (len / 256 + 64)]) r
        (show len % 256 < 256 by omega) (show l.length + 1 = _ by simp)
      rwa [List.append_assoc] at this
    simp only [List.length_cons, List.length_nil] at hlen
    rw [determineLength, if_neg (by omega), hb0, hb1]
    simp only [and_63, two_byte_length (show len % 256 < 256 by omega), Nat.shiftRight_eq_div_pow]
    rw [if_neg (by omega), if_pos (by omega), if_neg (by omega), if_neg (by omega),
      show (len / 256 + 64) % 64 * 256 + len % 256 = len by omega]
    rfl
  · generalize hx' : [UInt8.ofNat (len / 2 ^ 24 + 128), UInt8.ofNat (len / 2 ^ 16 % 256),
      UInt8.ofNat (len / 256 % 256), UInt8.ofNat (len % 256)] = x at *
    have hb0 : byteAt (l ++ (x ++ r)) l.length = len / 2 ^ 24 + 128 := by
      rw [← hx']
      exact byteAt_append_ofNat l _ (by omega) rfl
    have hb1 : byteAt (l ++ (x ++ r)) (l.length + 1) = len / 2 ^ 16 % 256 := by
      have := byteAt_append_ofNat (l ++ [UInt8.ofNat (len / 2 ^ 24 + 128)])
        (UInt8.ofNat (len / 256 % 256) :: UInt8.ofNat (len % 256) :: r)
        (show len / 2 ^ 16 % 256 < 256 by omega) (show l.length + 1 = _ by simp)
      rw [← hx']
      rwa [List.append_assoc] at this
    have hb2 : byteAt (l ++ (x ++ r)) (l.length + 2) = len / 256 % 256 := by
      have := byteAt_append_ofNat (l ++ [UInt8.ofNat (len / 2 ^ 24 + 128),
        UInt8.ofNat (len / 2 ^ 16 % 256)]) (UInt8.ofNat (len % 256) :: r)
        (show len / 256 % 256 < 256 by omega) (show l.length + 2 = _ by simp)
      rw [← hx']
      rwa [List.append_assoc] at this
    have hb3 : byteAt (l ++ (x ++ r)) (l.length + 3) = len % 256 := by
      have := byteAt_append_ofNat (l ++ [UInt8.ofNat (len / 2 ^ 24 + 128),
        UInt8.ofNat (len / 2 ^ 16 % 256), UInt8.ofNat (len / 256 % 256)]) r
        (show len % 256 < 256 by omega) (show l.length + 3 = _ by simp)
      rw [← hx']
      rwa [List.append_assoc] at this
    have hxlen : x.length = 4 := by rw [← hx']; rfl
    rw [determineLength, if_neg (by omega), hb0, hb1, hb2, hb3, hxlen]
    simp only [and_63, four_byte_length (show len / 2 ^ 16 % 256 < 256 by omega)
      (show len / 256 % 256 < 256 by omega) (show len % 256 < 256 by omega),
      Nat.shiftRight_eq_div_pow]
    rw [if_neg (by omega), if_neg (by omega), if_pos (by omega), if_neg (by omega),
      if_neg (by omega), show (len / 2 ^ 24 + 128) % 64 * 2 ^ 24 + len / 2 ^ 16 % 256 * 2 ^ 16 +
        len / 256 % 256 * 256 + len % 256 = len by omega]
    rfl

/-! ## Strings, lists and optional values -/

theorem decodeVarLenData_eq_ok {b : Bytes} {offset len : ℕ} {data : Bytes} :
    decodeVarLenData b offset = .ok (some (data, len)) ↔ ∃ length size,
      determineLength b offset = .ok (length, size) ∧ offset + (size + length) ≤ b.length ∧
      (b.drop (offset + size)).take length = data ∧ size + length = len := by
  have hoff : offset ≥ b.length → determineLength b offset =
      .error (codecError "Offset beyond buffer") := fun h => by
    rw [determineLength, if_pos h]
    rfl
  unfold decodeVarLenData
  split_ifs with h
  · rw [hoff h]
    simp
  · cases hd : determineLength b offset with
    | error e => simp
    | ok p =>
      obtain ⟨length, size⟩ := p
      rw [ok_bind]
      simp only [Except.ok.injEq, Prod.mk.injEq]
      split_ifs with hlen
      · constructor
        · intro h
          cases h
        rintro ⟨length', size', ⟨rfl, rfl⟩, hle, -⟩
        omega
      · simp only [pure, Except.pure, Except.ok.injEq, Option.some.injEq, Prod.mk.injEq]
        constructor
        · rintro ⟨rfl, rfl⟩
          exact ⟨length, size, ⟨rfl, rfl⟩, by omega, rfl, rfl⟩
        · rintro ⟨length', size', ⟨rfl, rfl⟩, -, rfl, rfl⟩
          exact ⟨rfl, rfl⟩

theorem canonical_varLenData : Canonical encodeVarLenData decodeVarLenData := by
  intro b offset data len _ h
  obtain ⟨length, size, hd, hle, rfl, rfl⟩ := decodeVarLenData_eq_ok.mp h
  obtain ⟨x, hx, rfl, hpre⟩ := determineLength_eq_ok hd
  have hlen : ((b.drop (offset + x.length)).take length).length = length := by
    rw [List.length_take, List.length_drop]
    omega
  refine ⟨x ++ (b.drop (offset + x.length)).take length, ?_, by rw [List.length_append, hlen], ?_⟩
  · exact encodeVarLenData_eq_ok.mpr ⟨x, by rw [hlen, hx], rfl⟩
  · obtain ⟨r, hr⟩ := hpre
    have hdrop : b.drop (offset + x.length) = r := by rw [← List.drop_drop, ← hr, List.drop_left]
    rw [hdrop, ← hr]
    exact (List.prefix_append_right_inj x).mpr (List.take_prefix length r)

theorem recovers_varLenData (data : Bytes) :
    Recovers decodeVarLenData (encodeVarLenData data) data := by
  intro l x r h
  obtain ⟨y, hy, rfl⟩ := encodeVarLenData_eq_ok.mp h
  refine decodeVarLenData_eq_ok.mpr ⟨data.length, y.length, ?_, ?_, ?_, List.length_append.symm⟩
  · rw [List.append_assoc]
    exact determineLength_append hy l (data ++ r)
  · simp only [List.length_append]
    omega
  · have hdrop : (l ++ (y ++ data ++ r)).drop (l.length + y.length) = data ++ r := by
      rw [← List.drop_drop, List.drop_left, List.append_assoc, List.drop_left]
    rw [hdrop, List.take_left]

/-- No value is encoded as the empty string. -/
def NonEmpty {α : Type} (enc : Encoder α) : Prop := ∀ a, enc a ≠ .ok []

theorem NonEmpty.comp {α β : Type} {enc : Encoder α} (h : NonEmpty enc) (f : β → α) :
    NonEmpty fun b => enc (f b) :=
  fun b => h (f b)

theorem nonEmpty_uint {w : ℕ} (hw : 0 < w) : NonEmpty (encodeUint w) := by
  intro n h
  have := congrArg List.length (encodeUint_eq_ok h).2.2
  rw [length_bigEndian] at this
  simp only [List.length_nil] at this
  omega

theorem nonEmpty_uint16 : NonEmpty encodeUint16 := nonEmpty_uint (by decide)

theorem nonEmpty_varLenData : NonEmpty encodeVarLenData := by
  intro data h
  obtain ⟨x, hx, h⟩ := encodeVarLenData_eq_ok.mp h
  rcases encodeLength_eq_ok hx with ⟨-, rfl⟩ | ⟨-, rfl⟩ | ⟨-, rfl⟩ <;> simp at h

theorem nonEmpty_cons {α : Type} {enc : Encoder α} {encoders : List (Encoder α)}
    (h : NonEmpty enc) : NonEmpty (contramapEncoders (enc :: encoders)) := by
  intro a ha
  obtain ⟨x, y, hx, -, hz⟩ := concat_cons_eq_ok.mp ha
  rw [(List.append_eq_nil_iff.mp hz.symm).1] at hx
  exact h a hx

section
variable {α : Type} {enc : Encoder α} {dec : Decoder α}

theorem decodeVarLenTypeLoop_items (hc : Canonical enc dec) {total : Bytes} {fuel cursor : ℕ}
    {l : List α} (hle : cursor ≤ total.length)
    (h : decodeVarLenTypeLoop dec total fuel cursor = .ok (some l)) :
    items enc l = .ok (total.drop cursor) := by
  induction fuel generalizing cursor l with
  | zero =>
    simp only [decodeVarLenTypeLoop] at h
    split_ifs at h with hlt
    obtain rfl : [] = l := by simpa [pure, Except.pure] using h
    rw [List.drop_of_length_le (by omega)]
    rfl
  | succ fuel ih =>
    simp only [decodeVarLenTypeLoop] at h
    by_cases hlt : cursor < total.length
    · rw [if_pos hlt] at h
      cases hd : dec total cursor with
      | error e => simp [hd] at h
      | ok o =>
        cases o with
        | none => simp [hd] at h
        | some p =>
          obtain ⟨value, len⟩ := p
          by_cases hzero : len = 0
          · simp [hd, hzero] at h
          simp only [hd, if_neg hzero] at h
          obtain ⟨x, hx, rfl, hpre⟩ := hc total cursor value len hle hd
          have hpl := hpre.length_le
          rw [List.length_drop] at hpl
          cases hr : decodeVarLenTypeLoop dec total fuel (cursor + x.length) with
          | error e => simp [hr] at h
          | ok o =>
            cases o with
            | none => simp [hr] at h
            | some rest =>
              obtain rfl : value :: rest = l := by simpa [hr] using h
              refine items_cons_eq_ok.mpr ⟨x, _, hx, ih (by omega) hr, ?_⟩
              obtain ⟨r, hr⟩ := hpre
              rw [← List.drop_drop, ← hr, List.drop_left]
    · rw [if_neg hlt] at h
      obtain rfl : [] = l := by simpa [pure, Except.pure] using h
      rw [List.drop_of_length_le (by omega)]
      rfl

theorem decodeVarLenTypeLoop_recovers (hne : NonEmpty enc) {l : List α}
    (hr : ∀ a ∈ l, Recovers dec (enc a) a) (done : Bytes) {body : Bytes} (fuel : ℕ)
    (hbody : items enc l = .ok body) (hfuel : body.length ≤ fuel) :
    decodeVarLenTypeLoop dec (done ++ body) fuel done.length = .ok (some l) := by
  induction l generalizing done body fuel with
  | nil =>
    obtain rfl : [] = body := by simpa using hbody
    have hge : ¬done.length < (done ++ ([] : Bytes)).length := by simp
    cases fuel <;> rw [decodeVarLenTypeLoop, if_neg hge] <;> rfl
  | cons a l ih =>
    obtain ⟨x, y, hx, hy, rfl⟩ := items_cons_eq_ok.mp hbody
    have hxpos : x.length ≠ 0 := by
      intro h
      rw [List.length_eq_zero_iff] at h
      subst h
      exact hne a hx
    rw [List.length_append] at hfuel
    obtain ⟨fuel, rfl⟩ := Nat.exists_eq_succ_of_ne_zero (show fuel ≠ 0 by omega)
    have hlt : done.length < (done ++ (x ++ y)).length := by
      simp only [List.length_append]
      omega
    have hitem := hr a (List.mem_cons_self ..) done x y hx
    have hrest := ih (fun a ha => hr a (List.mem_cons_of_mem _ ha)) (done ++ x) fuel hy (by omega)
    rw [List.append_assoc, List.length_append] at hrest
    rw [decodeVarLenTypeLoop, if_pos hlt, hitem]
    simp only [if_neg hxpos, hrest]

theorem canonical_varLenType (hc : Canonical enc dec) :
    Canonical (encodeVarLenType enc) (decodeVarLenType dec) := by
  intro b offset l len hle h
  cases hd : decodeVarLenData b offset with
  | error e => simp [decodeVarLenType, hd] at h
  | ok o =>
    cases o with
    | none => simp [decodeVarLenType, hd] at h
    | some p =>
      obtain ⟨total, totalLength⟩ := p
      cases hl : decodeVarLenTypeLoop dec total total.length 0 with
      | error e => simp [decodeVarLenType, hd, hl] at h
      | ok o =>
        cases o with
        | none => simp [decodeVarLenType, hd, hl] at h
        | some result =>
          obtain ⟨rfl, rfl⟩ : result = l ∧ totalLength = len := by
            simpa [decodeVarLenType, hd, hl] using h
          obtain ⟨x, hx, hlen, hpre⟩ := canonical_varLenData b offset total totalLength hle hd
          have hitems := decodeVarLenTypeLoop_items hc (Nat.zero_le _) hl
          rw [List.drop_zero] at hitems
          exact ⟨x, encodeVarLenType_eq_ok.mpr ⟨total, hitems, hx⟩, hlen, hpre⟩

theorem recovers_varLenType (hne : NonEmpty enc) {l : List α}
    (hr : ∀ a ∈ l, Recovers dec (enc a) a) :
    Recovers (decodeVarLenType dec) (encodeVarLenType enc l) l := by
  intro p x r h
  obtain ⟨body, hbody, hx⟩ := encodeVarLenType_eq_ok.mp h
  have hl := decodeVarLenTypeLoop_recovers hne hr [] _ hbody le_rfl
  rw [List.nil_append, List.length_nil] at hl
  rw [decodeVarLenType, recovers_varLenData body p x r hx]
  simp only [hl]

theorem encodeOptional_some_eq_ok {a : α} {x : Bytes} :
    encodeOptional enc (some a) = .ok x ↔ ∃ y, enc a = .ok y ∧ x = 0x1 :: y := by
  rw [encodeOptional, bind_eq_ok]
  simp [pure, Except.pure, eq_comm]

theorem encodeUint8_one : encodeUint8 1 = .ok [1] := by decide

theorem encodeUint8_zero : encodeUint8 0 = .ok [0] := by decide

theorem canonical_optional (hc : Canonical enc dec) :
    Canonical (encodeOptional enc) (decodeOptional dec) := by
  apply Canonical.tagged (canonical_uint 1)
  intro presence
  by_cases h1 : presence = 1
  · rw [if_pos h1]
    apply hc.map
    rintro a y hy x hx
    rw [h1] at hx
    obtain rfl := Except.ok.inj (encodeUint8_one.symm.trans hx)
    exact encodeOptional_some_eq_ok.mpr ⟨y, hy, rfl⟩
  rw [if_neg h1]
  by_cases h0 : presence = 0
  · rw [if_pos h0]
    apply Parses.pure
    rintro x hx
    rw [h0] at hx
    obtain rfl := Except.ok.inj (encodeUint8_zero.symm.trans hx)
    rfl
  · rw [if_neg h0]
    exact Parses.nothing

theorem recovers_optional {o : Option α} (hr : ∀ a, o = some a → Recovers dec (enc a) a) :
    Recovers (decodeOptional dec) (encodeOptional enc o) o := by
  cases o with
  | none =>
    refine Recovers.bind (recovers_uint 1 0) (t := .ok []) (Recovers.pure rfl) ?_
    intro z hz
    exact ⟨z, [], encodeUint8_zero.trans hz, rfl, (List.append_nil z).symm⟩
  | some a =>
    refine Recovers.bind (recovers_uint 1 1) (t := enc a) ((hr a rfl).map) ?_
    intro z hz
    obtain ⟨y, hy, rfl⟩ := encodeOptional_some_eq_ok.mp hz
    exact ⟨[1], y, encodeUint8_one, hy, rfl⟩

end

/-! ## Enumerations -/

section
variable {S : Type} {names : List S} {t : S → ℤ} {w : ℕ}

theorem enumNumberToKey_eq_some {n : ℤ} {s : S} (h : enumNumberToKey names t n = some s) :
    t s = n := by
  have := List.find?_some h
  simpa using this

theorem canonical_enum : Canonical (contramapEncoder (encodeUint w) t)
    (mapDecoderOption (decodeUint w) (enumNumberToKey names t)) := by
  apply (canonical_uint w).filterMap
  rintro n s x hs hx
  rw [contramapEncoder, enumNumberToKey_eq_some hs]
  exact hx

theorem recovers_enum {s : S} (hs : enumNumberToKey names t (t s) = some s) :
    Recovers (mapDecoderOption (decodeUint w) (enumNumberToKey names t))
      (contramapEncoder (encodeUint w) t s) s :=
  (recovers_uint w (t s)).filterMap hs

theorem toNumber_openEnumNumberToKey {other : ℤ → S} (hother : ∀ n, t (other n) = n) {n : ℤ} :
    t (openEnumNumberToKey names t other n) = n := by
  unfold openEnumNumberToKey
  cases h : enumNumberToKey names t n with
  | none => exact hother n
  | some s => exact enumNumberToKey_eq_some h

theorem canonical_openEnum {other : ℤ → S} (hother : ∀ n, t (other n) = n) :
    Canonical (contramapEncoder (encodeUint w) t)
      (mapDecoder (decodeUint w) (openEnumNumberToKey names t other)) := by
  apply (canonical_uint w).map
  intro n x hx
  rw [contramapEncoder, toNumber_openEnumNumberToKey hother]
  exact hx

theorem recovers_openEnum {other : ℤ → S} {s : S}
    (hs : openEnumNumberToKey names t other (t s) = s) :
    Recovers (mapDecoder (decodeUint w) (openEnumNumberToKey names t other))
      (contramapEncoder (encodeUint w) t s) s := by
  have := (recovers_uint w (t s)).map (g := openEnumNumberToKey names t other)
  rwa [hs] at this

end

/-! ## Alternatives -/

section
variable {α : Type} {d d' : Decoder α}

theorem Parses.or {R : α → Bytes → Prop} (h : Parses d R) (h' : Parses d' R) :
    Parses (orDecoder d d') R := by
  intro b offset a len hle hd
  unfold orDecoder at hd
  cases ht : d b offset with
  | error e => simp [ht] at hd
  | ok o =>
    cases o with
    | none => exact h' b offset a len hle (by simpa [ht] using hd)
    | some p => exact h b offset a len hle (by simpa [ht] using hd)

theorem Recovers.or_left {s : Except MlsError Bytes} {a : α} (h : Recovers d s a) :
    Recovers (orDecoder d d') s a := by
  intro l x r hx
  simp only [orDecoder, h l x r hx]

theorem Recovers.or_right {s : Except MlsError Bytes} {a : α}
    (hnone : ∀ l x r, s = .ok x → d (l ++ (x ++ r)) l.length = .ok none) (h : Recovers d' s a) :
    Recovers (orDecoder d d') s a := by
  intro l x r hx
  simp only [orDecoder, hnone l x r hx]
  exact h l x r hx

end

end WebcryptoMls
