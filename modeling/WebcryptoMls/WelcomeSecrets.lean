import WebcryptoMls.EpochSteps
import WebcryptoMls.MessageDelivery
import WebcryptoMls.PathRecipients

/-!
# What a Welcome carries

A commit seals to each key package it adds what its owner needs to enter the epoch: the joiner
secret, the identities of the pre-shared keys and the path secret of the lowest node above the
new leaf and the committer's. The GroupInfo goes along under a key of the epoch. The owner of
the key package finds its own secrets by the reference and opens all of it.
-/
namespace WebcryptoMls
open PrefixCode

/-! ## On the wire -/

theorem nonEmpty_pskId : NonEmpty encodePskId := by
  refine nonEmpty_cons fun id h => ?_
  have htype (t : PSKTypeName) : encodePskType t ≠ .ok [] := by cases t <;> exact nofun
  cases hinfo : id.info with
  | external pskId =>
    rw [contramapEncoder, hinfo] at h
    exact nonEmpty_cons (fun _ => htype .external) pskId h
  | resumption info =>
    rw [contramapEncoder, hinfo] at h
    exact nonEmpty_cons (fun _ => htype .resumption) info h

theorem recovers_groupSecrets {secrets : GroupSecrets} (h : ∀ id ∈ secrets.psks, id.WellFormed) :
    Recovers decodeGroupSecrets (encodeGroupSecrets secrets) secrets :=
  .field (recovers_varLenData _) <|
  .field (recovers_optional fun secret _ => recovers_varLenData secret) <|
  .field (recovers_varLenType nonEmpty_pskId fun id hid => recovers_pskId (h id hid)) recovers_nil

/-! ## Pre-shared keys -/

section
variable {cs : CiphersuiteImpl} {pskIndex pskSearch : PskIndex} {groupedPsk : List PreSharedKeyID}
  {zeroes : Bytes} {result : Bytes × List PreSharedKeyID}

/-- A client that finds the keys another one found comes to the same secret. -/
theorem accumulatePsk_found (hfound : ∀ id key, pskIndex.findPsk id = some key →
      pskSearch.findPsk id = some key) {count : ℕ} {acc : Bytes × List PreSharedKeyID}
    {cur : PreSharedKeyID × ℕ} (h : accumulatePsk pskIndex cs count acc cur = .ok result) :
    accumulatePsk pskSearch cs count acc cur = .ok result ∧ result.2 = acc.2 ++ [cur.1] := by
  unfold accumulatePsk at *
  split_ifs at h ⊢
  cases hfind : pskIndex.findPsk cur.1 with
  | none =>
    rw [hfind] at h
    cases h
  | some key =>
    rw [hfind] at h
    rw [hfound _ _ hfind]
    refine ⟨h, ?_⟩
    obtain ⟨pskSecret, -, h⟩ := bind_eq_ok.mp h
    rw [← Except.ok.inj h]

theorem accumulatePskSecret_found (hfound : ∀ id key, pskIndex.findPsk id = some key →
      pskSearch.findPsk id = some key)
    (h : accumulatePskSecret groupedPsk pskIndex cs zeroes = .ok result) :
    result.2 = groupedPsk ∧ accumulatePskSecret result.2 pskSearch cs zeroes = .ok result := by
  have hfold : ∀ (l : List (PreSharedKeyID × ℕ)) acc,
      l.foldlM (accumulatePsk pskIndex cs groupedPsk.length) acc = .ok result →
      l.foldlM (accumulatePsk pskSearch cs groupedPsk.length) acc = .ok result ∧
        result.2 = acc.2 ++ l.map Prod.fst := by
    intro l
    induction l with
    | nil =>
      intro acc hacc
      obtain rfl := Except.ok.inj hacc
      exact ⟨rfl, by simp⟩
    | cons cur l ih =>
      intro acc hacc
      rw [List.foldlM_cons] at hacc ⊢
      obtain ⟨next, hnext, hacc⟩ := bind_eq_ok.mp hacc
      obtain ⟨hfirst, hids⟩ := accumulatePsk_found hfound hnext
      obtain ⟨hrest, hresult⟩ := ih next hacc
      rw [hfirst, ok_bind]
      exact ⟨hrest, by simp [hresult, hids]⟩
  obtain ⟨hsearch, hids⟩ := hfold _ _ h
  simp only [List.nil_append, List.zipIdx_map_fst] at hids
  rw [hids]
  exact ⟨rfl, hsearch⟩

end

/-! ## Sealing and opening -/

/-- A decoder that recovers a value recovers it from the value's own string. -/
theorem decode_recovered {ε σ α : Type} {d : Decoding ε σ α} {s : Except ε (List σ)} {a : α}
    (h : Recovers d s a) {x : List σ} (hx : s = .ok x) : d x 0 = .ok (some (a, x.length)) := by
  simpa using h [] x [] hx

/-- What is encrypted is decrypted under the same key. -/
def AeadOpens (hpke : Hpke) : Prop :=
  ∀ key nonce aad plaintext ciphertext, hpke.encryptAead key nonce aad plaintext = .ok ciphertext →
    hpke.decryptAead key nonce aad ciphertext = .ok plaintext

/-- The key package is one of those added, and no other of them has its reference. -/
structure AddedAt (cs : CiphersuiteImpl) (added : List (ℕ × KeyPackage)) (i : ℕ)
    (keyPackage : KeyPackage) : Prop where
  mem : (i, keyPackage) ∈ added
  sole : ∀ other ∈ added, makeKeyPackageRef other.2 cs.hash = makeKeyPackageRef keyPackage cs.hash →
    other = (i, keyPackage)

/-- The secrets of the member that was added at leaf `i`. -/
def WelcomeContent.secretsFor (w : WelcomeContent) (nodeIndex : ℤ) : GroupSecrets where
  joinerSecret := w.joinerSecret
  pathSecret := (w.pathSecrets.find? fun ps => ps.nodeIndex = nodeIndex).map PathSecret.secret
  psks := w.pskIds

section
variable {cs : CiphersuiteImpl} {w : WelcomeContent} {i : ℕ} {keyPackage : KeyPackage}
  {initPrivateKey : Bytes} {welcome : Welcome}

/-- What was sealed to a key package is what its owner decrypts. -/
theorem decryptGroupSecrets_sealed {coins ref : Bytes} {egs : EncryptedGroupSecrets}
    (hkey : PrivateKeyOf cs.hpke initPrivateKey keyPackage.initKey)
    (hids : ∀ id ∈ w.pskIds, id.WellFormed)
    (h : createEncryptedGroupSecrets cs w coins i keyPackage = .ok egs)
    (hinfo : welcome.encryptedGroupInfo = w.encryptedGroupInfo)
    (hfind : (welcome.secrets.find? fun s => constantTimeEqual s.newMember ref) = some egs) :
    ∃ nodeIndex key, firstCommonAncestor w.tree i w.committerLeafIndex = .ok nodeIndex ∧
      cs.hpke.importPrivateKey initPrivateKey = .ok key ∧
      decryptGroupSecrets cs.hpke key ref welcome = .ok (some (w.secretsFor nodeIndex)) := by
  obtain ⟨nodeIndex, hnode, h⟩ := bind_eq_ok.mp h
  obtain ⟨publicKey, hpublic, h⟩ := bind_eq_ok.mp h
  obtain ⟨encrypted, hencrypted, h⟩ := bind_eq_ok.mp h
  obtain ⟨_, -, h⟩ := bind_eq_ok.mp h
  obtain rfl := Except.ok.inj h
  obtain ⟨encoded, hencoded, hencrypted⟩ := bind_eq_ok.mp hencrypted
  obtain ⟨info, hlabel, hseal⟩ := bind_eq_ok.mp hencrypted
  obtain ⟨key, hprivate, hopen⟩ := hkey _ _ _ _ _ hpublic hseal
  refine ⟨nodeIndex, key, hnode, hprivate, ?_⟩
  have hsecrets : ∀ id ∈ (w.secretsFor nodeIndex).psks, id.WellFormed := hids
  have hdecoded := decode_recovered (recovers_groupSecrets hsecrets) hencoded
  simp only [decryptGroupSecrets, hfind, decryptWithLabel, hinfo, hlabel, ok_bind, hopen, hdecoded]
  rfl

theorem createEncryptedGroupSecrets_newMember {coins : Bytes} {egs : EncryptedGroupSecrets}
    (h : createEncryptedGroupSecrets cs w coins i keyPackage = .ok egs) :
    makeKeyPackageRef keyPackage cs.hash = .ok egs.newMember := by
  obtain ⟨_, -, h⟩ := bind_eq_ok.mp h
  obtain ⟨_, -, h⟩ := bind_eq_ok.mp h
  obtain ⟨_, -, h⟩ := bind_eq_ok.mp h
  obtain ⟨ref, hmake, h⟩ := bind_eq_ok.mp h
  rw [hmake, ← Except.ok.inj h]

theorem decryptGroupInfo_encrypted {groupInfo : GroupInfo} {joinerSecret pskSecret welcomeSecret : Bytes}
    (haead : AeadOpens cs.hpke) (hwire : groupInfo.WellFormed)
    (hsecret : extractWelcomeSecret joinerSecret pskSecret cs.kdf = .ok welcomeSecret)
    (h : encryptGroupInfo groupInfo welcomeSecret cs = .ok welcome.encryptedGroupInfo) :
    decryptGroupInfo welcome joinerSecret pskSecret cs = .ok (some groupInfo) := by
  obtain ⟨key, hkey, h⟩ := bind_eq_ok.mp h
  obtain ⟨nonce, hnonce, h⟩ := bind_eq_ok.mp h
  obtain ⟨encoded, hencoded, h⟩ := bind_eq_ok.mp h
  have hdecoded := decode_recovered (recovers_groupInfo hwire) hencoded
  simp only [decryptGroupInfo, hsecret, ok_bind, hkey, hnonce, haead _ _ _ _ _ h, hdecoded]
  rfl

/-- Each added key package has its entry, under its own reference. -/
theorem createWelcome_eq_ok {groupContext : GroupContext} {groupInfo : GroupInfo}
    {welcomeSecret : Bytes} {added : List (ℕ × KeyPackage)} {coins : ℕ → Bytes}
    (hadded : AddedAt cs added i keyPackage)
    (h : createWelcome cs groupContext groupInfo (fun e => { w with encryptedGroupInfo := e })
      welcomeSecret added coins = .ok (some welcome)) :
    encryptGroupInfo groupInfo welcomeSecret cs = .ok welcome.encryptedGroupInfo ∧
    ∃ ref egs n, makeKeyPackageRef keyPackage cs.hash = .ok ref ∧
      createEncryptedGroupSecrets cs { w with encryptedGroupInfo := welcome.encryptedGroupInfo }
        (coins n) i keyPackage = .ok egs ∧
      (welcome.secrets.find? fun s => constantTimeEqual s.newMember ref) = some egs := by
  obtain ⟨encryptedGroupInfo, hencrypted, h⟩ := bind_eq_ok.mp h
  obtain ⟨secrets, hsecrets, h⟩ := bind_eq_ok.mp h
  split_ifs at h
  · obtain rfl := Option.some.inj (Except.ok.inj h)
    refine ⟨hencrypted, ?_⟩
    obtain ⟨n, hn⟩ := List.mem_iff_getElem?.mp hadded.mem
    obtain ⟨own, hown, hsealed⟩ := exists_mem_of_mapM hsecrets ((i, keyPackage), n)
      (List.mem_zipIdx_iff_getElem?.mpr hn)
    have hownRef := createEncryptedGroupSecrets_newMember hsealed
    have hfound : (secrets.find? fun s => constantTimeEqual s.newMember own.newMember).isSome :=
      List.find?_isSome.mpr ⟨own, hown, constantTimeEqual_iff.mpr rfl⟩
    obtain ⟨egs, hfind⟩ := Option.isSome_iff_exists.mp hfound
    obtain ⟨⟨other, n'⟩, hother, hegs⟩ := mem_of_mapM hsecrets egs (List.mem_of_find?_eq_some hfind)
    have hsame : egs.newMember = own.newMember := by simpa using List.find?_some hfind
    have hmem : other ∈ added := List.mem_of_getElem? (List.mem_zipIdx_iff_getElem?.mp hother)
    obtain rfl := hadded.sole other hmem
      (by rw [hownRef, createEncryptedGroupSecrets_newMember hegs, hsame])
    exact ⟨own.newMember, egs, n', hownRef, hegs, hfind⟩
  · cases h

/-- There is a Welcome as soon as a key package is added. -/
theorem createWelcome_some {groupContext : GroupContext} {groupInfo : GroupInfo}
    {content : Bytes → WelcomeContent} {welcomeSecret : Bytes} {added : List (ℕ × KeyPackage)}
    {coins : ℕ → Bytes} {result : Option Welcome} (hadded : AddedAt cs added i keyPackage)
    (h : createWelcome cs groupContext groupInfo content welcomeSecret added coins = .ok result) :
    ∃ welcome, result = some welcome := by
  obtain ⟨encryptedGroupInfo, -, h⟩ := bind_eq_ok.mp h
  obtain ⟨secrets, hsecrets, h⟩ := bind_eq_ok.mp h
  split_ifs at h with hlength
  · exact ⟨_, (Except.ok.inj h).symm⟩
  · have hsame := (forall₂_of_mapM hsecrets).length_eq
    have hpos := List.length_pos_of_mem hadded.mem
    rw [List.length_zipIdx] at hsame
    omega

/-- The owner of an added key package opens what the committer put into the Welcome. -/
theorem openWelcome_eq {groupContext : GroupContext} {groupInfo : GroupInfo}
    {pskSecret welcomeSecret : Bytes} {added : List (ℕ × KeyPackage)} {coins : ℕ → Bytes}
    {pskSearch : PskIndex} (haead : AeadOpens cs.hpke) (hadded : AddedAt cs added i keyPackage)
    (hkey : PrivateKeyOf cs.hpke initPrivateKey keyPackage.initKey) (hwire : groupInfo.WellFormed)
    (hids : ∀ id ∈ w.pskIds, id.WellFormed)
    (hpsk : accumulatePskSecret w.pskIds pskSearch cs (List.replicate cs.kdf.size 0) =
      .ok (pskSecret, w.pskIds))
    (hsecret : extractWelcomeSecret w.joinerSecret pskSecret cs.kdf = .ok welcomeSecret)
    (h : createWelcome cs groupContext groupInfo (fun e => { w with encryptedGroupInfo := e })
      welcomeSecret added coins = .ok (some welcome)) :
    ∃ nodeIndex, firstCommonAncestor w.tree i w.committerLeafIndex = .ok nodeIndex ∧
      openWelcome cs welcome keyPackage initPrivateKey pskSearch = .ok {
        groupSecrets := w.secretsFor nodeIndex
        pskSecret := pskSecret
        pskIds := w.pskIds
        groupInfo := groupInfo } := by
  obtain ⟨hencrypted, ref, egs, n, href, hegs, hfind⟩ := createWelcome_eq_ok hadded h
  obtain ⟨nodeIndex, key, hnode, hprivate, hdecrypt⟩ :=
    decryptGroupSecrets_sealed (w := { w with encryptedGroupInfo := welcome.encryptedGroupInfo })
      hkey hids hegs rfl hfind
  have hinfo := decryptGroupInfo_encrypted haead hwire hsecret hencrypted
  refine ⟨nodeIndex, hnode, ?_⟩
  simp only [openWelcome, href, hprivate, ok_bind, hdecrypt]
  simp only [WelcomeContent.secretsFor, hpsk, ok_bind, hinfo]
  rfl

end

end WebcryptoMls
