import WebcryptoMls.AttachmentLayout
import WebcryptoMls.Crypto

/-!
# Seal schedule and snapshot

The keys of a sealed object, all derived from the content encryption key and a
salt, the sealing of one segment, and the tree of digests over the segments. The
epoch keys a state caches are the ones it derives, so no cache is modelled, nor is
the wiping of a state.
-/
namespace WebcryptoMls
open Slices

/-! ## Primitives -/

structure Aead where
  encrypt : Bytes → Bytes → Bytes → Bytes → Except MlsError Bytes
  decrypt : Bytes → Bytes → Bytes → Bytes → Except MlsError Bytes

/-- The salt a sealing draws is an argument of `sealObject`. -/
structure SealCrypto where
  aead : Aead
  kdf : Kdf
  aeadId : ℤ
  kdfId : ℤ
  keyLength : ℕ
  nonceLength : ℕ
  tagLength : ℕ

def LP_SALT : Bytes := encodeText "raAE-LP-v1"

def uint16be (n : ℕ) : Bytes := bigEndian 2 n

def uint32be (n : ℕ) : Bytes := bigEndian 4 n

def uint64be (n : ℕ) : Except MlsError Bytes :=
  if n > 0xFFFFFFFFFFFFFFFF then throw attachmentError else pure (bigEndian 8 n)

def concatAll (parts : List Bytes) : Bytes := parts.flatten

/-- Zeros up to the size of a hash, which change nothing in an HMAC key. -/
def paddedSalt (kdf : Kdf) (salt : Bytes) : Except MlsError Bytes :=
  if salt.length > kdf.size then throw attachmentError
  else pure (salt ++ List.replicate (kdf.size - salt.length) 0)

/-- The large-field hash. -/
def lh (x : Bytes) (kdf : Kdf) : Except MlsError Bytes := do
  let salt ← paddedSalt kdf LP_SALT
  kdf.extract salt x

/-- A field behind its length, or behind `0xFFFF` the hash of a long one. -/
def frame (x : Bytes) (kdf : Kdf) : Except MlsError Bytes :=
  if x.length ≤ 0xFFFE then pure (concatAll [uint16be x.length, x])
  else do
    let digest ← lh x kdf
    pure (concatAll [uint16be 0xFFFF, digest])

/-- `encode`; a string is framed as its ASCII bytes. -/
def encodeFramed (kdf : Kdf) (parts : List Bytes) : Except MlsError Bytes := do
  let framed ← parts.mapM fun part => frame part kdf
  pure (concatAll framed)

def sealKdf (kdf : Kdf) (protocolId label : String) (ikm info : List Bytes) (length : ℕ) :
    Except MlsError Bytes := do
  let extractInput ← encodeFramed kdf (encodeText protocolId :: encodeText label :: ikm)
  let salt ← paddedSalt kdf (encodeText protocolId)
  let prk ← kdf.extract salt extractInput
  let expandInfo ←
    encodeFramed kdf (encodeText protocolId :: encodeText label :: (info ++ [uint16be length]))
  kdf.expand prk expandInfo length

/-! ## Schedule -/

def PROTOCOL_RO : String := "SEAL-RO-v1"

def AAD_LABEL : String := "SEAL-DATA"

def NONCE_DERIVED : ℤ := 0x01

def SNAP_EPOCH_TREE : ℤ := 0x0003

def SEGMENT_MAX : ℕ := 65536

def ATTACHMENT_EPOCH_LENGTH : ℕ := 10

def SALT_LENGTH : ℕ := 32

def CEK_LENGTH : ℕ := 32

def assertCekLength (cek : Bytes) : Except MlsError Unit :=
  if cek.length ≠ CEK_LENGTH then throw attachmentError else pure ()

structure SealParams where
  protocolId : String
  aeadId : ℤ
  kdfId : ℤ
  segmentMax : ℕ
  snapId : ℤ
  nonceMode : ℤ
  epochLength : ℕ
  salt : Bytes

def validateParams (p : SealParams) : Except MlsError Unit :=
  if p.aeadId < 0 ∨ p.aeadId > 0xFFFF then throw attachmentError
  else if p.kdfId < 0 ∨ p.kdfId > 0xFFFF then throw attachmentError
  else if p.snapId < 0 ∨ p.snapId > 0xFFFF then throw attachmentError
  else if p.segmentMax > 0xFFFFFFFF then throw attachmentError
  else if p.nonceMode < 0 ∨ p.nonceMode > 0xFF then throw attachmentError
  else if p.epochLength > 0xFF then throw attachmentError
  else if p.salt.length ≠ SALT_LENGTH then throw attachmentError
  else pure ()

structure SealState where
  params : SealParams
  commitment : Bytes
  payloadKey : Bytes
  snapKey : Bytes
  nonceBase : Option Bytes
  crypto : SealCrypto

/-- What every key of an object is bound to. -/
def rawFields (params : SealParams) : List Bytes := [
  uint16be params.aeadId.toNat,
  uint32be params.segmentMax,
  uint16be params.kdfId.toNat,
  uint16be params.snapId.toNat,
  [UInt8.ofNat params.nonceMode.toNat],
  [UInt8.ofNat params.epochLength],
  params.salt]

def deriveSchedule (cek : Bytes) (params : SealParams) (g : Bytes) (crypto : SealCrypto) :
    Except MlsError SealState := do
  validateParams params
  let pid := params.protocolId
  let nh := crypto.kdf.size
  let derive := fun label info length => sealKdf crypto.kdf pid label [cek] info length
  let commitment ← derive "commit" (rawFields params ++ [g]) nh
  let payloadKey ← derive "payload_key" (rawFields params) crypto.keyLength
  let snapKey ← derive "acc_key" (rawFields params) nh
  let nonceBase ←
    if params.nonceMode = NONCE_DERIVED then
      some <$> derive "nonce_base" (rawFields params) crypto.nonceLength
    else pure none
  pure {
    params := params
    commitment := commitment
    payloadKey := payloadKey
    snapKey := snapKey
    nonceBase := nonceBase
    crypto := crypto }

def startSeal (cek : Bytes) (params : SealParams) (g : Bytes) (crypto : SealCrypto) :
    Except MlsError SealState := deriveSchedule cek params g crypto

def startOpen (cek : Bytes) (params : SealParams) (g storedCommitment : Bytes)
    (crypto : SealCrypto) : Except MlsError SealState := do
  let state ← deriveSchedule cek params g crypto
  if !constantTimeEqual state.commitment storedCommitment then throw attachmentError
  else pure state

def segmentKey (state : SealState) (index : ℕ) : Except MlsError Bytes :=
  if index ≥ 2 ^ 63 then throw attachmentError
  else do
    let epochIndex ← uint64be (index / 2 ^ state.params.epochLength)
    sealKdf state.crypto.kdf state.params.protocolId "epoch_key" [state.payloadKey] [epochIndex]
      state.crypto.keyLength

/-- The index and the finality of a segment go into the last eight bytes. -/
def derivedNonce (nonceBase : Bytes) (index : ℕ) (isFinal : Bool) : Except MlsError Bytes :=
  if nonceBase.length < 8 then throw attachmentError
  else if index ≥ 2 ^ 63 then throw attachmentError
  else do
    let mixed := 2 * index + isFinal.toNat
    let tail ← uint64be mixed
    let start := nonceBase.length - 8
    pure (nonceBase.take start ++ List.zipWith (· ^^^ ·) (nonceBase.drop start) tail)

def segmentAad (state : SealState) (index : ℕ) (isFinal : Bool) (extra : Bytes) :
    Except MlsError Bytes :=
  if index ≥ 2 ^ 63 then throw attachmentError
  else if state.params.nonceMode = NONCE_DERIVED then
    if extra.length = 0 then pure []
    else encodeFramed state.crypto.kdf [encodeText AAD_LABEL, extra]
  else do
    let finalByte : Bytes := [if isFinal then 1 else 0]
    let indexBytes ← uint64be index
    if extra.length = 0 then
      encodeFramed state.crypto.kdf [encodeText AAD_LABEL, indexBytes, finalByte]
    else encodeFramed state.crypto.kdf [encodeText AAD_LABEL, indexBytes, finalByte, extra]

/-- The nonce a segment is sealed under: derived, or the caller's. -/
def segmentNonce (state : SealState) (index : ℕ) (isFinal : Bool) (nonce : Option Bytes) :
    Except MlsError Bytes := do
  let nonce ←
    if state.params.nonceMode = NONCE_DERIVED then
      match state.nonceBase with
      | none => throw attachmentError
      | some nonceBase => derivedNonce nonceBase index isFinal
    else
      match nonce with
      | none => throw attachmentError
      | some nonce => pure nonce
  if nonce.length ≠ state.crypto.nonceLength then throw attachmentError else pure nonce

structure SealedSegment where
  ciphertext : Bytes
  tag : Bytes
  nonce : Bytes

def sealSegment (state : SealState) (index : ℕ) (isFinal : Bool) (plaintext : Bytes)
    (nonce : Option Bytes) (extra : Bytes) : Except MlsError SealedSegment := do
  let nonce ← segmentNonce state index isFinal nonce
  let key ← segmentKey state index
  let aad ← segmentAad state index isFinal extra
  let sealed ← state.crypto.aead.encrypt key nonce aad plaintext
  let split := sealed.length - state.crypto.tagLength
  pure { ciphertext := sealed.take split, tag := sealed.drop split, nonce := nonce }

/-- Whatever the decryption throws becomes the one error there is. -/
def openSegment (state : SealState) (index : ℕ) (isFinal : Bool) (ciphertext tag : Bytes)
    (nonce : Option Bytes) (extra : Bytes) : Except MlsError Bytes := do
  let nonce ← segmentNonce state index isFinal nonce
  if tag.length ≠ state.crypto.tagLength then throw attachmentError
  else do
    let key ← segmentKey state index
    let aad ← segmentAad state index isFinal extra
    match state.crypto.aead.decrypt key nonce aad (concatAll [ciphertext, tag]) with
    | .error _ => throw attachmentError
    | .ok plaintext => pure plaintext

/-! ## Snapshot -/

def segmentLeaf (state : SealState) (ciphertext tag : Bytes) : Except MlsError Bytes := do
  let digest ← lh ciphertext state.crypto.kdf
  pure (concatAll [digest, tag])

def epochHead (state : SealState) (epochRun : Bytes) : Except MlsError Bytes := do
  let digest ← lh epochRun state.crypto.kdf
  sealKdf state.crypto.kdf state.params.protocolId "snap_epoch" [state.snapKey] [digest]
    state.crypto.kdf.size

def epochTreeRoot (state : SealState) (nSeg : ℕ) (heads : Bytes) : Except MlsError Bytes := do
  let digest ← lh heads state.crypto.kdf
  let count ← uint64be nSeg
  sealKdf state.crypto.kdf state.params.protocolId "snap_epoch_root" [state.snapKey]
    [state.commitment, count, digest] state.crypto.kdf.size

/-! ## One segment -/

/-- Decryption undoes encryption, which adds a tag. -/
def Aead.Inverts (aead : Aead) (tagLength : ℕ) : Prop :=
  ∀ key nonce aad plaintext sealed, aead.encrypt key nonce aad plaintext = .ok sealed →
    sealed.length = plaintext.length + tagLength ∧
      aead.decrypt key nonce aad sealed = .ok plaintext

/-- A sealed segment is as long as its plaintext and opens to it. -/
theorem openSegment_sealSegment {state : SealState} {index : ℕ} {isFinal : Bool} {plaintext : Bytes}
    {nonce : Option Bytes} {extra : Bytes} {sealed : SealedSegment}
    (hinv : state.crypto.aead.Inverts state.crypto.tagLength)
    (h : sealSegment state index isFinal plaintext nonce extra = .ok sealed) :
    sealed.ciphertext.length = plaintext.length ∧ sealed.tag.length = state.crypto.tagLength ∧
      openSegment state index isFinal sealed.ciphertext sealed.tag nonce extra = .ok plaintext := by
  obtain ⟨nonce', hnonce, h⟩ := bind_eq_ok.mp h
  obtain ⟨key, hkey, h⟩ := bind_eq_ok.mp h
  obtain ⟨aad, haad, h⟩ := bind_eq_ok.mp h
  obtain ⟨bytes, hbytes, h⟩ := bind_eq_ok.mp h
  obtain rfl := Except.ok.inj h
  obtain ⟨hlen, hdecrypt⟩ := hinv _ _ _ _ _ hbytes
  have htag : (bytes.drop (bytes.length - state.crypto.tagLength)).length =
      state.crypto.tagLength := by
    rw [List.length_drop]
    omega
  refine ⟨?_, htag, ?_⟩
  · simp only [List.length_take]
    omega
  · unfold openSegment
    rw [hnonce, ok_bind, if_neg (not_not.mpr htag), hkey, ok_bind, haad, ok_bind]
    simp only [concatAll, List.flatten_cons, List.flatten_nil, List.append_nil,
      List.take_append_drop, hdecrypt]
    rfl

end WebcryptoMls
