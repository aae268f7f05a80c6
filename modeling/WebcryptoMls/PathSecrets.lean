import WebcryptoMls.HashCoordinates
import WebcryptoMls.PrivatePaths

/-!
# The secrets of a created path

A committer derives one secret for each node of its filtered path and encrypts
it to the resolution of the node's other child, in one flat list of jobs. The
ciphertexts are cut back into runs by counting, so a receiver finds its own by
its place in the resolution alone.
-/
namespace WebcryptoMls
open InOrder (index size Below)

/-! ## The chain of secrets -/

/-- The secrets derived along a path, lowest node first. -/
def chainSecrets (kdf : Kdf) : Bytes → List PathNode → Except MlsError (List PathSecret)
  | _, [] => pure []
  | secret, node :: fdp => do
    let nextPathSecret ← deriveSecret secret "path" kdf
    let above ← chainSecrets kdf nextPathSecret fdp
    pure ({ nodeIndex := node.nodeIndex, secret := nextPathSecret, sendTo := node.resolution } ::
      above)

theorem chainSecrets_nodes {kdf : Kdf} {secret : Bytes} {fdp : List PathNode}
    {secrets : List PathSecret} (h : chainSecrets kdf secret fdp = .ok secrets) :
    secrets.map PathSecret.nodeIndex = fdp.map PathNode.nodeIndex ∧
    secrets.map PathSecret.sendTo = fdp.map PathNode.resolution := by
  induction fdp generalizing secret secrets with
  | nil =>
    obtain rfl := Except.ok.inj h
    exact ⟨rfl, rfl⟩
  | cons node fdp ih =>
    obtain ⟨next, -, h⟩ := bind_eq_ok.mp h
    obtain ⟨above, habove, h⟩ := bind_eq_ok.mp h
    obtain rfl := Except.ok.inj h
    obtain ⟨hnodes, hsendTo⟩ := ih habove
    exact ⟨by simp [hnodes], by simp [hsendTo]⟩

/-- The loop that writes the keys collects the chain, root first. -/
theorem foldlM_initialTreeUpdateStep_secrets {cs : CiphersuiteImpl} {fdp : List PathNode}
    {t t' : RatchetTree} {last : PathSecret} {below ps : List PathSecret}
    (h : fdp.foldlM (initialTreeUpdateStep cs) (t, last :: below) = .ok (t', ps)) :
    ∃ secrets, chainSecrets cs.kdf last.secret fdp = .ok secrets ∧
      ps = secrets.reverse ++ last :: below := by
  induction fdp generalizing t last below with
  | nil =>
    obtain ⟨-, rfl⟩ := Prod.mk.inj (Except.ok.inj h)
    exact ⟨[], rfl, rfl⟩
  | cons node fdp ih =>
    rw [List.foldlM_cons] at h
    obtain ⟨⟨t₁, ps₁⟩, hstep, h⟩ := bind_eq_ok.mp h
    simp only [initialTreeUpdateStep, lastPathSecret, pure_bind] at hstep
    obtain ⟨next, hnext, hstep⟩ := bind_eq_ok.mp hstep
    obtain ⟨_, -, hstep⟩ := bind_eq_ok.mp hstep
    obtain ⟨_, -, hstep⟩ := bind_eq_ok.mp hstep
    obtain ⟨_, -, hstep⟩ := bind_eq_ok.mp hstep
    obtain ⟨-, rfl⟩ := Prod.mk.inj (Except.ok.inj hstep)
    obtain ⟨secrets, hsecrets, rfl⟩ := ih h
    refine ⟨{ nodeIndex := node.nodeIndex, secret := next, sendTo := node.resolution } :: secrets,
      ?_, by simp⟩
    rw [chainSecrets, hnext, ok_bind, hsecrets]
    rfl

/-! ## Encrypting the secrets -/

/-- A ciphertext of a secret under the key of a node. -/
def SealedTo (cs : CiphersuiteImpl) (t : RatchetTree) (context secret : Bytes) (nodeIndex : ℤ)
    (ciphertext : HPKECiphertext) : Prop :=
  ∃ coins recipientKey, publicKeyAt t nodeIndex = .ok recipientKey ∧
    encryptJob cs context coins { secret := secret, recipientKey := recipientKey } = .ok ciphertext

/-- A node of a path carries the new key of its place and the node's secret under
the key of each recipient, in the order of the recipients. -/
structure SealsSecret (cs : CiphersuiteImpl) (t t' : RatchetTree) (context : Bytes)
    (pathSecret : PathSecret) (node : UpdatePathNode) : Prop where
  key : publicKeyAt t' pathSecret.nodeIndex = .ok node.hpkePublicKey
  secret : List.Forall₂ (SealedTo cs t context pathSecret.secret) pathSecret.sendTo
    node.encryptedPathSecret

theorem sealedTo_of_jobs {cs : CiphersuiteImpl} {t : RatchetTree} {context secret : Bytes}
    {coins : ℕ → Bytes} {sendTo : List ℤ} {jobs : List EncryptionJob} {n : ℕ}
    {ciphertexts : List HPKECiphertext}
    (hjobs : (sendTo.mapM fun nodeIndex => do
      let recipientKey ← publicKeyAt t nodeIndex
      pure ({ secret := secret, recipientKey := recipientKey } : EncryptionJob)) = .ok jobs)
    (h : ((jobs.zipIdx n).mapM fun (job, i) => encryptJob cs context (coins i) job) =
      .ok ciphertexts) :
    List.Forall₂ (SealedTo cs t context secret) sendTo ciphertexts := by
  induction sendTo generalizing jobs n ciphertexts with
  | nil =>
    obtain rfl := Except.ok.inj hjobs
    obtain rfl := Except.ok.inj h
    exact .nil
  | cons nodeIndex sendTo ih =>
    rw [List.mapM_cons] at hjobs
    obtain ⟨job, hjob, hjobs⟩ := bind_eq_ok.mp hjobs
    obtain ⟨rest, hrest, hjobs⟩ := bind_eq_ok.mp hjobs
    obtain rfl := Except.ok.inj hjobs
    obtain ⟨recipientKey, hkey, hjob⟩ := bind_eq_ok.mp hjob
    obtain rfl := Except.ok.inj hjob
    rw [List.zipIdx_cons, List.mapM_cons] at h
    obtain ⟨ciphertext, hct, h⟩ := bind_eq_ok.mp h
    obtain ⟨cts, hcts, h⟩ := bind_eq_ok.mp h
    obtain rfl := Except.ok.inj h
    exact .cons ⟨coins n, recipientKey, hkey, hct⟩ (ih hrest hcts)

/-- Cutting the flat list of ciphertexts by counts gives each node its own run. -/
theorem updatePathNodes_sealed {cs : CiphersuiteImpl} {t t' : RatchetTree} {context : Bytes}
    {coins : ℕ → Bytes} {secrets : List PathSecret} {jobs : List (List EncryptionJob)} {n : ℕ}
    {ciphertexts : List HPKECiphertext} {nodes : List UpdatePathNode}
    (hjobs : secrets.mapM (encryptionJobs t) = .ok jobs)
    (hcts : ((jobs.flatten.zipIdx n).mapM fun (job, i) => encryptJob cs context (coins i) job) =
      .ok ciphertexts)
    (h : updatePathNodes t' secrets ciphertexts = .ok nodes) :
    List.Forall₂ (SealsSecret cs t t' context) secrets nodes := by
  induction secrets generalizing jobs n ciphertexts nodes with
  | nil =>
    obtain rfl := Except.ok.inj h
    exact .nil
  | cons secret secrets ih =>
    rw [List.mapM_cons] at hjobs
    obtain ⟨own, hown, hjobs⟩ := bind_eq_ok.mp hjobs
    obtain ⟨others, hothers, hjobs⟩ := bind_eq_ok.mp hjobs
    obtain rfl := Except.ok.inj hjobs
    rw [List.flatten_cons, List.zipIdx_append] at hcts
    obtain ⟨run, rest, hrun, hrest, rfl⟩ := mapM_append_eq_ok hcts
    obtain ⟨key, hkey, h⟩ := bind_eq_ok.mp h
    obtain ⟨above, habove, h⟩ := bind_eq_ok.mp h
    obtain rfl := Except.ok.inj h
    have hsealed := sealedTo_of_jobs hown hrun
    rw [hsealed.length_eq, List.drop_left] at habove
    refine .cons ⟨hkey, ?_⟩ (ih hothers hrest habove)
    rw [hsealed.length_eq, List.take_left]
    exact hsealed

theorem encryptSecretsForPath_sealed {cs : CiphersuiteImpl} {t t' : RatchetTree}
    {gc : GroupContext} {coins : ℕ → Bytes} {secrets : List PathSecret}
    {nodes : List UpdatePathNode}
    (h : encryptSecretsForPath secrets t t' gc cs coins = .ok nodes) :
    ∃ context, encodeGroupContext gc = .ok context ∧
      List.Forall₂ (SealsSecret cs t t' context) secrets nodes := by
  obtain ⟨context, hcontext, h⟩ := bind_eq_ok.mp h
  obtain ⟨jobs, hjobs, h⟩ := bind_eq_ok.mp h
  obtain ⟨ciphertexts, hcts, h⟩ := bind_eq_ok.mp h
  exact ⟨context, hcontext, updatePathNodes_sealed hjobs hcts h⟩

/-! ## Creating a path -/

/-- The sender's path with the recipients of each node. -/
def senderPath (t : RatchetTree) (d i : ℕ) (exclude : List ℤ) : List PathNode :=
  (filteredLevels t d i).map fun m =>
    { nodeIndex := pathNode i m
      resolution := filterNewLeaves (resolutionAt t m (sib (i / 2 ^ m))) exclude }

/-- The context of the next epoch, as far as a path binds it. -/
def pathContext (gc : GroupContext) (treeHash : Bytes) : GroupContext :=
  { gc with treeHash := treeHash, epoch := gc.epoch + 1 }

theorem createUpdatePath_secrets {t : RatchetTree} {d i : ℕ} {gc : GroupContext}
    {cs : CiphersuiteImpl} {key : cs.signature.SignatureSecretKey} {coins : PathCoins}
    {exclude : List ℤ} {patch : ResolvedLeafNodePatch cs.signature} {created : CreatedPath cs}
    (hlen : t.length = size d) (hd : d ≤ 31)
    (h : createUpdatePath t i gc cs key coins exclude patch = .ok created) :
    ∃ secrets context, chainSecrets cs.kdf coins.pathSecret (senderPath t d i exclude) = .ok secrets ∧
      encodeGroupContext (pathContext gc created.treeHash) = .ok context ∧
      List.Forall₂ (SealsSecret cs t created.tree context) secrets created.updatePath.nodes ∧
      (secrets ≠ [] → created.pathSecrets = secrets) := by
  unfold createUpdatePath at h
  simp only [leafToNodeIndex_eq, nodeAt_coord] at h
  split at h
  case h_2 => cases h
  case h_1 originalLeafNode horig =>
    obtain ⟨leafNodeSecret, -, h⟩ := bind_eq_ok.mp h
    obtain ⟨⟨leafPrivateKey, leafPublicKey⟩, -, h⟩ := bind_eq_ok.mp h
    obtain ⟨fdp, hfdp, h⟩ := bind_eq_ok.mp h
    obtain ⟨⟨t₁, ps⟩, hinit, h⟩ := bind_eq_ok.mp h
    obtain ⟨t₂, -, h⟩ := bind_eq_ok.mp h
    obtain ⟨⟨leafHash, r⟩, -, h⟩ := bind_eq_ok.mp h
    obtain ⟨hpkePublicKey, -, h⟩ := bind_eq_ok.mp h
    obtain ⟨signed, -, h⟩ := bind_eq_ok.mp h
    obtain ⟨root, -, h⟩ := bind_eq_ok.mp h
    obtain ⟨nodes, hnodes, h⟩ := bind_eq_ok.mp h
    obtain rfl := Except.ok.inj h
    obtain ⟨hd30, hi⟩ := filteredDirectPathAndCopathResolution_eq_ok hlen hd hfdp
    rw [filteredDirectPathAndCopathResolution_coord hlen hd30 hi, Except.ok.injEq] at hfdp
    subst hfdp
    rw [List.map_map] at hinit
    obtain ⟨secrets, hchain, rfl⟩ := foldlM_initialTreeUpdateStep_secrets hinit
    have hlowest : ∀ lowest : PathSecret, (secrets.reverse ++ [lowest]).dropLast.reverse = secrets := by
      simp
    simp only [hlowest] at hnodes
    obtain ⟨context, hcontext, hsealed⟩ := encryptSecretsForPath_sealed hnodes
    refine ⟨secrets, context, hchain, hcontext, hsealed, fun hne => ?_⟩
    simp only [hlowest]
    rw [if_pos (List.length_pos_iff.mpr hne)]

/-! ## Batches -/

def MAX_CONCURRENT_ENCRYPTIONS : ℕ := 512

/-- The loop over batches: `ciphertexts.push(...encrypted)` after each. -/
def encryptBatches {α β : Type} (encrypt : α → Except MlsError β) (maxConcurrent : ℕ) :
    ℕ → List α → List β → Except MlsError (List β)
  | 0, _, _ => throw (nonTermination "encryptSecretsForPath")
  | fuel + 1, jobs, ciphertexts =>
    if jobs.length = 0 then pure ciphertexts
    else do
      let encrypted ← (jobs.take maxConcurrent).mapM encrypt
      encryptBatches encrypt maxConcurrent fuel (jobs.drop maxConcurrent)
        (ciphertexts ++ encrypted)

/-- The batches end, and leave no trace in the order of the ciphertexts. -/
theorem encryptBatches_eq {α β : Type} {encrypt : α → Except MlsError β} {maxConcurrent : ℕ}
    (hmax : 0 < maxConcurrent) (fuel : ℕ) (jobs : List α) (hfuel : jobs.length < fuel)
    (ciphertexts : List β) :
    encryptBatches encrypt maxConcurrent fuel jobs ciphertexts = (do
      let encrypted ← jobs.mapM encrypt
      pure (ciphertexts ++ encrypted)) := by
  induction fuel generalizing jobs ciphertexts with
  | zero => omega
  | succ fuel ih =>
    rw [encryptBatches]
    split_ifs with hjobs
    · simp [List.length_eq_zero_iff.mp hjobs]
    · have hlen : (jobs.drop maxConcurrent).length < fuel := by
        rw [List.length_drop]
        omega
      conv_rhs => rw [← List.take_append_drop maxConcurrent jobs, List.mapM_append]
      simp only [ih _ hlen, bind_assoc, pure_bind, List.append_assoc]

/-- `encryptSecretsForPath` with the batches of the source. -/
theorem encryptSecretsForPath_batches (secrets : List PathSecret) (t t' : RatchetTree)
    (gc : GroupContext) (cs : CiphersuiteImpl) (coins : ℕ → Bytes) :
    encryptSecretsForPath secrets t t' gc cs coins = (do
      let context ← encodeGroupContext gc
      let jobs ← secrets.mapM (encryptionJobs t)
      let ciphertexts ← encryptBatches (fun (job, i) => encryptJob cs context (coins i) job)
        MAX_CONCURRENT_ENCRYPTIONS (jobs.flatten.length + 1) jobs.flatten.zipIdx []
      updatePathNodes t' secrets ciphertexts) := by
  rw [encryptSecretsForPath]
  congr 1
  funext context
  congr 1
  funext jobs
  rw [encryptBatches_eq (by decide) _ _ (by simp)]
  simp

end WebcryptoMls
