import WebcryptoMls.Messages
import WebcryptoMls.Records

/-!
# The secret tree

Every leaf of an epoch has a ratchet for handshake messages and one for
application messages. A ratchet steps from one chain secret to the next, and the
key and nonce of a generation are derived from its chain secret; the generations
a receiver steps past are kept as a key and a nonce. Wiping a secret a call has
derived for itself changes no value that is used again, and a kept nonce is copied
before the reuse guard is written into it, so neither shows here.
-/
namespace WebcryptoMls
open Records

structure GenerationKeyNonce where
  key : Bytes
  nonce : Bytes
  deriving DecidableEq

structure GenerationSecret where
  secret : Bytes
  generation : ℕ
  unusedGenerations : Record ℕ GenerationKeyNonce
  deriving DecidableEq

structure SecretTreeNode where
  handshake : GenerationSecret
  application : GenerationSecret
  deriving DecidableEq

abbrev SecretTree := List (Option SecretTreeNode)

structure KeyRetentionConfig where
  retainKeysForGenerations : ℤ
  retainKeysForEpochs : ℤ
  maximumForwardRatchetSteps : ℤ

def defaultKeyRetentionConfig : KeyRetentionConfig where
  retainKeysForGenerations := 10
  retainKeysForEpochs := 4
  maximumForwardRatchetSteps := 200

structure SenderData where
  leafIndex : ℕ
  generation : ℕ
  reuseGuard : Bytes

structure ConsumeRatchetResult where
  nonce : Bytes
  reuseGuard : Bytes
  key : Bytes
  generation : ℕ
  newTree : SecretTree

/-! ## Creation -/

/-- `tree[index] = a`, which makes the array longer where the index is past its end. -/
def writeAt {α : Type} (tree : List (Option α)) (index : ℤ) (a : α) : List (Option α) :=
  if index < 0 then tree
  else (tree ++ List.replicate (index.toNat + 1 - tree.length) none).set index.toNat (some a)

/-- Writes the secrets below a node; `left` and `right` accept 32 levels. -/
def deriveChildren (kdf : Kdf) :
    ℕ → List (Option Bytes) → ℤ → Except MlsError (List (Option Bytes))
  | 0, _, _ => throw (nonTermination "deriveChildren")
  | fuel + 1, tree, nodeIndex =>
    if isLeaf nodeIndex then pure tree
    else do
      let l ← left nodeIndex
      let r ← right nodeIndex
      match tree[nodeIndex.toNat]?.join with
      | none => throw (internalError "Bad node index for secret tree")
      | some parentSecret => do
        let leftSecret ← expandWithLabel parentSecret "tree" (encodeText "left") kdf.size kdf
        let rightSecret ← expandWithLabel parentSecret "tree" (encodeText "right") kdf.size kdf
        let tree ← deriveChildren kdf fuel (writeAt (writeAt tree l leftSecret) r rightSecret) l
        deriveChildren kdf fuel tree r

def scaffoldSecretTree (leafWidth : ℚ) (encryptionSecret : Bytes) (kdf : Kdf) :
    Except MlsError (List (Option Bytes)) :=
  let tree := List.replicate (nodeWidth leafWidth) none
  let rootIndex := root leafWidth
  deriveChildren kdf 33 (writeAt tree rootIndex encryptionSecret) rootIndex

def createRatchetRoot (node : Bytes) (label : String) (kdf : Kdf) :
    Except MlsError GenerationSecret := do
  let secret ← expandWithLabel node label [] kdf.size kdf
  pure { secret := secret, generation := 0, unusedGenerations := .empty }

/-- The two ratchets of a leaf; a parent keeps none. -/
def createRatchets (kdf : Kdf) (secret : Option Bytes) (index : ℕ) :
    Except MlsError (Option SecretTreeNode) :=
  match secret with
  | none => pure none
  | some secret =>
    if isLeaf index then do
      let application ← createRatchetRoot secret "application" kdf
      let handshake ← createRatchetRoot secret "handshake" kdf
      pure (some { handshake := handshake, application := application })
    else pure none

def createSecretTree (leafWidth : ℚ) (encryptionSecret : Bytes) (kdf : Kdf) :
    Except MlsError SecretTree := do
  let tree ← scaffoldSecretTree leafWidth encryptionSecret kdf
  tree.zipIdx.mapM fun (secret, index) => createRatchets kdf secret index

/-- A snapshot of a superseded epoch has no handshake ratchets. -/
def stripHandshakeRatchets (tree : SecretTree) : SecretTree :=
  tree.map fun node => node.map fun node => {
    application := node.application
    handshake := {
      secret := []
      generation := node.handshake.generation
      unusedGenerations := .empty } }

/-! ## Ratcheting -/

/-- `tree[index]` -/
def ratchetsAt (tree : SecretTree) (index : ℤ) : Option SecretTreeNode :=
  if index < 0 then none else tree[index.toNat]?.join

/-- `[...tree.slice(0, index), t, ...tree.slice(index + 1)]` -/
def updateArray {α : Type} (tree : List α) (index : ℤ) (t : α) : List α :=
  tree.take index.toNat ++ t :: tree.drop (index.toNat + 1)

def deriveNonce (secret : Bytes) (generation : ℕ) (cs : CiphersuiteImpl) : Except MlsError Bytes :=
  deriveTreeSecret secret "nonce" generation cs.hpke.nonceLength cs.kdf

def deriveKey (secret : Bytes) (generation : ℕ) (cs : CiphersuiteImpl) : Except MlsError Bytes :=
  deriveTreeSecret secret "key" generation cs.hpke.keyLength cs.kdf

def removeOldGenerations (generations : Record ℕ GenerationKeyNonce) (max : ℤ) :
    Record ℕ GenerationKeyNonce :=
  if max ≤ 0 then .empty else generations.latest max.toNat

def updateUnusedGenerations (s : GenerationSecret) (retainGenerationsMax : ℤ)
    (cs : CiphersuiteImpl) : Except MlsError (Record ℕ GenerationKeyNonce) :=
  if retainGenerationsMax ≤ 0 then pure .empty
  else do
    let key ← deriveKey s.secret s.generation cs
    let nonce ← deriveNonce s.secret s.generation cs
    let withNew := s.unusedGenerations.set s.generation { key := key, nonce := nonce }
    if withNew.size ≥ retainGenerationsMax then pure (removeOldGenerations withNew retainGenerationsMax)
    else pure withNew

/-- One round of `ratchetUntil`. -/
def ratchetOnce (config : KeyRetentionConfig) (cs : CiphersuiteImpl) (s : GenerationSecret) :
    Except MlsError GenerationSecret := do
  let unusedGenerations ← updateUnusedGenerations s config.retainKeysForGenerations cs
  let nextSecret ← deriveTreeSecret s.secret "secret" s.generation cs.kdf.size cs.kdf
  pure { secret := nextSecret, generation := s.generation + 1, unusedGenerations := unusedGenerations }

def repeatAsync {α : Type} (fn : α → Except MlsError α) (initial : α) : ℕ → Except MlsError α
  | 0 => pure initial
  | times + 1 => do
    let result ← fn initial
    repeatAsync fn result times

def ratchetUntil (current : GenerationSecret) (desiredGen : ℕ) (config : KeyRetentionConfig)
    (cs : CiphersuiteImpl) : Except MlsError GenerationSecret :=
  let generationDifference : ℤ := desiredGen - current.generation
  if generationDifference > config.maximumForwardRatchetSteps then
    throw (validationError "Desired generation too far in the future")
  else repeatAsync (ratchetOnce config cs) current generationDifference.toNat

/-- XORs the guard into the first four bytes of the nonce. -/
def applyReuseGuard (nonce reuseGuard : Bytes) : Except MlsError Bytes :=
  if nonce.length ≥ 4 ∧ reuseGuard.length ≥ 4 then
    pure (List.zipWith (· ^^^ ·) (nonce.take 4) (reuseGuard.take 4) ++ nonce.drop 4)
  else throw (validationError "Reuse guard or nonce incorrect length")

def derivePrivateMessageNonce (secret : Bytes) (generation : ℕ) (reuseGuard : Bytes)
    (cs : CiphersuiteImpl) : Except MlsError Bytes := do
  let nonce ← deriveNonce secret generation cs
  applyReuseGuard nonce reuseGuard

/-- A leaf's two ratchets. -/
inductive RatchetName where
  | handshake
  | application
  deriving Repr, DecidableEq

def ratchetName : ContentTypeName → RatchetName
  | .application => .application
  | .proposal => .handshake
  | .commit => .handshake

def SecretTreeNode.ratchet (node : SecretTreeNode) : RatchetName → GenerationSecret
  | .handshake => node.handshake
  | .application => node.application

def ratchetForContentType (node : SecretTreeNode) (contentType : ContentTypeName) :
    GenerationSecret :=
  node.ratchet (ratchetName contentType)

/-- The node with the ratchet of a content type replaced. -/
def withRatchet (node : SecretTreeNode) (contentType : ContentTypeName) (ratchet : GenerationSecret) :
    SecretTreeNode :=
  if contentType = .application then { node with application := ratchet }
  else { node with handshake := ratchet }

/-- `createRatchetResultWithSecret` after the step to the next chain secret. -/
def createRatchetResult (node : SecretTreeNode) (index : ℤ) (currentSecret : GenerationSecret)
    (reuseGuard : Bytes) (tree : SecretTree) (contentType : ContentTypeName) (cs : CiphersuiteImpl) :
    Except MlsError ConsumeRatchetResult := do
  let nextSecret ←
    deriveTreeSecret currentSecret.secret "secret" currentSecret.generation cs.kdf.size cs.kdf
  let ratchetState :=
    { currentSecret with secret := nextSecret, generation := currentSecret.generation + 1 }
  let key ← deriveKey currentSecret.secret currentSecret.generation cs
  let nonce ← derivePrivateMessageNonce currentSecret.secret currentSecret.generation reuseGuard cs
  pure {
    generation := currentSecret.generation
    reuseGuard := reuseGuard
    nonce := nonce
    key := key
    newTree := updateArray tree index (some (withRatchet node contentType ratchetState)) }

def ratchetToGeneration (tree : SecretTree) (senderData : SenderData) (contentType : ContentTypeName)
    (config : KeyRetentionConfig) (cs : CiphersuiteImpl) : Except MlsError ConsumeRatchetResult :=
  let index := leafToNodeIndex senderData.leafIndex
  match ratchetsAt tree index with
  | none => throw (internalError "Bad node index for secret tree")
  | some node =>
    let ratchet := ratchetForContentType node contentType
    if ratchet.generation > senderData.generation then
      match ratchet.unusedGenerations.get senderData.generation with
      | some desired => do
        let removedDesiredGen := ratchet.unusedGenerations.delete senderData.generation
        let ratchetState := { ratchet with unusedGenerations := removedDesiredGen }
        let nonce ← applyReuseGuard desired.nonce senderData.reuseGuard
        pure {
          generation := senderData.generation
          reuseGuard := senderData.reuseGuard
          key := desired.key
          nonce := nonce
          newTree := updateArray tree index (some (withRatchet node contentType ratchetState)) }
      | none => throw (validationError "Desired gen in the past")
    else do
      let currentSecret ← ratchetUntil ratchet senderData.generation config cs
      createRatchetResult node index currentSecret senderData.reuseGuard tree contentType cs

/-- The reuse guard is `randomBytes(4)`. -/
def consumeRatchet (tree : SecretTree) (index : ℤ) (contentType : ContentTypeName)
    (reuseGuard : Bytes) (cs : CiphersuiteImpl) : Except MlsError ConsumeRatchetResult :=
  match ratchetsAt tree index with
  | none => throw (internalError "Bad node index for secret tree")
  | some node =>
    createRatchetResult node index (ratchetForContentType node contentType) reuseGuard tree
      contentType cs

end WebcryptoMls
