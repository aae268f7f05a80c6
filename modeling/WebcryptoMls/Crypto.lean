import WebcryptoMls.LeafNode

/-!
# Cryptographic primitives

The ciphersuite is a parameter: what the library is given for a hash, a key
derivation function, a public-key encryption scheme and a signature scheme. A
primitive that may reject returns an error; one that draws random bytes takes
them as an argument, so that every function of the model is a function.
-/
namespace WebcryptoMls

structure Hash where
  digest : Bytes → Bytes
  mac : Bytes → Bytes → Bytes
  verifyMac : Bytes → Bytes → Bytes → Bool

structure Kdf where
  extract : Bytes → Bytes → Except MlsError Bytes
  expand : Bytes → Bytes → ℕ → Except MlsError Bytes
  size : ℕ

/-- What `seal_` returns. -/
structure Sealed where
  ct : Bytes
  enc : Bytes
  deriving Repr, DecidableEq

/-- What `exportSecret` returns. -/
structure ExportedSecret where
  enc : Bytes
  secret : Bytes
  deriving Repr, DecidableEq

/-- Keys are opaque values, read and written through the imports and exports. -/
structure Hpke where
  PublicKey : Type
  PrivateKey : Type
  open_ : PrivateKey → Bytes → Bytes → Bytes → Except MlsError Bytes
  seal_ : Bytes → PublicKey → Bytes → Bytes → Except MlsError Sealed
  importPrivateKey : Bytes → Except MlsError PrivateKey
  importPublicKey : Bytes → Except MlsError PublicKey
  exportPublicKey : PublicKey → Except MlsError Bytes
  exportPrivateKey : PrivateKey → Except MlsError Bytes
  encryptAead : Bytes → Bytes → Option Bytes → Bytes → Except MlsError Bytes
  decryptAead : Bytes → Bytes → Option Bytes → Bytes → Except MlsError Bytes
  keyLength : ℕ
  nonceLength : ℕ
  deriveKeyPair : Bytes → Except MlsError (PrivateKey × PublicKey)
  exportSecret : Bytes → PublicKey → Bytes → ℕ → Bytes → Except MlsError ExportedSecret
  importSecret : PrivateKey → Bytes → Bytes → ℕ → Bytes → Except MlsError Bytes

structure Signature where
  SignatureSecretKey : Type
  sign : Bytes → SignatureSecretKey → Bytes → Except MlsError Bytes
  verify : Bytes → Bytes → Bytes → Bool

structure CiphersuiteImpl where
  hash : Hash
  hpke : Hpke
  signature : Signature
  kdf : Kdf
  name : CiphersuiteName

/-- No two of these inputs have one output. -/
def CollisionFree {α β : Type} (f : α → Except MlsError β) (inputs : Set α) : Prop :=
  ∀ x ∈ inputs, ∀ y ∈ inputs, ∀ output, f x = .ok output → f y = .ok output → x = y

theorem CollisionFree.mono {α β : Type} {f : α → Except MlsError β} {s t : Set α}
    (h : CollisionFree f t) (hst : s ⊆ t) : CollisionFree f s :=
  fun x hx y hy => h x (hst hx) y (hst hy)

/-- `new TextEncoder().encode(s)` -/
def encodeText (s : String) : Bytes := s.toUTF8.data.toList

theorem encodeText_inj {s t : String} (h : encodeText s = encodeText t) : s = t := by
  rw [← String.toByteArray_inj]
  exact ByteArray.ext (Array.toList_inj.mp h)

/-- The label and context every key derivation, encryption and signature is
bound to. -/
def encodeLabelled (label : String) (content : Bytes) : Except MlsError Bytes := do
  let labelBytes ← encodeVarLenData (encodeText ("MLS 1.0 " ++ label))
  let contentBytes ← encodeVarLenData content
  pure (labelBytes ++ contentBytes)

def expandWithLabel (secret : Bytes) (label : String) (context : Bytes) (length : ℕ) (kdf : Kdf) :
    Except MlsError Bytes := do
  let lengthBytes ← encodeUint16 length
  let info ← encodeLabelled label context
  kdf.expand secret (lengthBytes ++ info) length

def deriveSecret (secret : Bytes) (label : String) (kdf : Kdf) : Except MlsError Bytes :=
  expandWithLabel secret label [] kdf.size kdf

def deriveTreeSecret (secret : Bytes) (label : String) (generation length : ℕ) (kdf : Kdf) :
    Except MlsError Bytes := do
  let context ← encodeUint32 generation
  expandWithLabel secret label context length kdf

def encryptWithLabel (hpke : Hpke) (coins : Bytes) (publicKey : hpke.PublicKey) (label : String)
    (context plaintext : Bytes) : Except MlsError Sealed := do
  let info ← encodeLabelled label context
  hpke.seal_ coins publicKey plaintext info

def decryptWithLabel (hpke : Hpke) (privateKey : hpke.PrivateKey) (label : String)
    (context kemOutput ciphertext : Bytes) : Except MlsError Bytes := do
  let info ← encodeLabelled label context
  hpke.open_ privateKey kemOutput ciphertext info

def signWithLabel (s : Signature) (coins : Bytes) (signKey : s.SignatureSecretKey) (label : String)
    (content : Bytes) : Except MlsError Bytes := do
  let message ← encodeLabelled label content
  s.sign coins signKey message

/-- A digest under a label. -/
def refhash (label : String) (value : Bytes) (h : Hash) : Except MlsError Bytes := do
  let labelBytes ← encodeVarLenData (encodeText label)
  let valueBytes ← encodeVarLenData value
  pure (h.digest (labelBytes ++ valueBytes))

def verifyWithLabel (publicKey : Bytes) (label : String) (content signature : Bytes)
    (s : Signature) : Except MlsError Bool := do
  let message ← encodeLabelled label content
  pure (s.verify publicKey message signature)

/-- Folds the differences of all positions, so the time taken does not depend on
where the strings differ. -/
def constantTimeEqual (a b : Bytes) : Bool :=
  if a.length ≠ b.length then false
  else (a.zip b).foldl (fun result (x, y) => result ||| (x ^^^ y)) 0 == 0

theorem foldl_or_xor_eq_zero (l : List (UInt8 × UInt8)) (r : UInt8) :
    l.foldl (fun result (x, y) => result ||| (x ^^^ y)) r = 0 ↔ r = 0 ∧ ∀ p ∈ l, p.1 = p.2 := by
  induction l generalizing r with
  | nil => simp
  | cons p l ih =>
    rw [List.foldl_cons, ih, UInt8.or_eq_zero_iff, List.forall_mem_cons, UInt8.xor_eq_zero_iff, and_assoc]

theorem eq_of_zip_eq {a b : Bytes} (hlen : a.length = b.length)
    (h : ∀ p ∈ a.zip b, p.1 = p.2) : a = b := by
  apply List.ext_getElem hlen
  intro i ha hb
  have hz : i < (a.zip b).length := by simp; omega
  have := h (a.zip b)[i] (List.getElem_mem hz)
  rwa [List.getElem_zip] at this

@[simp] theorem constantTimeEqual_iff {a b : Bytes} : constantTimeEqual a b = true ↔ a = b := by
  unfold constantTimeEqual
  split_ifs with hlen
  · simp only [false_iff]
    exact fun h => hlen (congrArg List.length h)
  · rw [beq_iff_eq, foldl_or_xor_eq_zero]
    constructor
    · exact fun h => eq_of_zip_eq (not_not.mp hlen) h.2
    · rintro rfl
      refine ⟨rfl, fun p hp => ?_⟩
      obtain ⟨i, hi, rfl⟩ := List.getElem_of_mem hp
      rw [List.getElem_zip]

theorem constantTimeEqual_eq_decide (a b : Bytes) : constantTimeEqual a b = decide (a = b) := by
  rw [Bool.eq_iff_iff, constantTimeEqual_iff, decide_eq_true_iff]

/-! ## A ciphersuite without secrets -/

/-- One byte that depends on all of them, so that what a suite derives stays short. -/
def checksum (bytes : Bytes) : UInt8 := bytes.foldl (fun sum byte => 3 * sum + byte) 0

/-- The input itself, marked: no two inputs have one digest. -/
def plainHash : Hash where
  digest input := 1 :: input
  mac key data := [checksum (key ++ data)]
  verifyMac key tag data := tag == [checksum (key ++ data)]

/-- A suite every function can be evaluated with: a key is its own private key, what is
sealed stands beside its key, and a signature is a checksum. -/
def plainSuite : CiphersuiteImpl where
  hash := plainHash
  hpke := {
    PublicKey := Bytes
    PrivateKey := Bytes
    open_ := fun key enc ct _ =>
      if enc = key then pure ct else throw (cryptoVerificationError "open")
    seal_ := fun _ key plaintext _ => pure { ct := plaintext, enc := key }
    importPrivateKey := pure
    importPublicKey := pure
    exportPublicKey := pure
    exportPrivateKey := pure
    encryptAead := fun key nonce _ plaintext => pure (key ++ nonce ++ plaintext)
    decryptAead := fun key nonce _ ciphertext =>
      if (key ++ nonce).isPrefixOf ciphertext then pure (ciphertext.drop (key ++ nonce).length)
      else throw (cryptoVerificationError "decryptAead")
    keyLength := 16
    nonceLength := 12
    deriveKeyPair := fun ikm => pure (ikm, ikm)
    exportSecret := fun coins key _ _ _ => pure { enc := coins, secret := coins ++ key }
    importSecret := fun key _ enc _ _ => pure (enc ++ key) }
  signature := {
    SignatureSecretKey := Bytes
    sign := fun _ key message => pure [checksum (key ++ message)]
    verify := fun key message signature => signature == [checksum (key ++ message)] }
  kdf := {
    extract := fun salt ikm => pure [checksum (salt ++ ikm)]
    expand := fun secret info length =>
      pure (List.replicate length (checksum (info ++ secret)))
    size := 1 }
  name := .MLS_128_DHKEMX25519_AES128GCM_SHA256_Ed25519

end WebcryptoMls
