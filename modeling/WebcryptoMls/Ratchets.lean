import WebcryptoMls.ClientState
import WebcryptoMls.Spending

/-!
# Ratchet chains

The key and nonce of a generation are a function of the chain secret the ratchet
starts from. Whatever order generations are asked for in, a ratchet stays on its
chain: its secret is the chain's at its generation, and what it keeps of an
earlier generation is what the chain gives there. The generations it can still
give are the ones it keeps and the ones ahead of it, and giving one out spends it.
-/
namespace WebcryptoMls
open Records

variable {cs : CiphersuiteImpl} {root : Bytes}

/-- The chain secret of a generation, from the ratchet's first. -/
def chainSecret (cs : CiphersuiteImpl) (root : Bytes) : ℕ → Except MlsError Bytes
  | 0 => pure root
  | generation + 1 => do
    let secret ← chainSecret cs root generation
    deriveTreeSecret secret "secret" generation cs.kdf.size cs.kdf

def generationKeyNonce (cs : CiphersuiteImpl) (root : Bytes) (generation : ℕ) :
    Except MlsError GenerationKeyNonce := do
  let secret ← chainSecret cs root generation
  let key ← deriveKey secret generation cs
  let nonce ← deriveNonce secret generation cs
  pure { key := key, nonce := nonce }

/-- An empty secret is no key to expand, so a stripped ratchet gives nothing. -/
def RefusesEmptySecret (kdf : Kdf) : Prop :=
  ∀ info length derived, kdf.expand [] info length ≠ .ok derived

structure OnChain (cs : CiphersuiteImpl) (root : Bytes) (ratchet : GenerationSecret) : Prop where
  secret : ratchet.secret ≠ [] → chainSecret cs root ratchet.generation = .ok ratchet.secret
  unused : ∀ g kept, ratchet.unusedGenerations.get g = some kept →
    g < ratchet.generation ∧ generationKeyNonce cs root g = .ok kept

/-- The generations a ratchet can still give. -/
def GenerationSecret.free (ratchet : GenerationSecret) : Set ℕ :=
  {g | ratchet.generation ≤ g ∨ ∃ kept, ratchet.unusedGenerations.get g = some kept}

theorem deriveTreeSecret_ne_nil (hkdf : RefusesEmptySecret cs.kdf) {secret derived : Bytes}
    {label : String} {generation length : ℕ}
    (h : deriveTreeSecret secret label generation length cs.kdf = .ok derived) : secret ≠ [] := by
  rintro rfl
  obtain ⟨context, -, h⟩ := bind_eq_ok.mp h
  obtain ⟨lengthBytes, -, h⟩ := bind_eq_ok.mp h
  obtain ⟨info, -, h⟩ := bind_eq_ok.mp h
  exact hkdf _ _ _ h

theorem chainSecret_succ {g : ℕ} {secret derived : Bytes} (h : chainSecret cs root g = .ok secret)
    (hd : deriveTreeSecret secret "secret" g cs.kdf.size cs.kdf = .ok derived) :
    chainSecret cs root (g + 1) = .ok derived :=
  bind_eq_ok.mpr ⟨secret, h, hd⟩

theorem generationKeyNonce_of {g : ℕ} {secret key nonce : Bytes}
    (h : chainSecret cs root g = .ok secret) (hkey : deriveKey secret g cs = .ok key)
    (hnonce : deriveNonce secret g cs = .ok nonce) :
    generationKeyNonce cs root g = .ok { key := key, nonce := nonce } := by
  unfold generationKeyNonce
  rw [h, ok_bind, hkey, ok_bind, hnonce]
  rfl

/-! ## Stepping forward -/

/-- What is kept after a step was kept before, or is of the generation left behind. -/
theorem get_updateUnusedGenerations {s : GenerationSecret} {max : ℤ}
    {unused : Record ℕ GenerationKeyNonce} (h : updateUnusedGenerations s max cs = .ok unused)
    {g : ℕ} {kept : GenerationKeyNonce} (hg : unused.get g = some kept) :
    s.unusedGenerations.get g = some kept ∨ g = s.generation ∧
      deriveKey s.secret g cs = .ok kept.key ∧ deriveNonce s.secret g cs = .ok kept.nonce := by
  unfold updateUnusedGenerations at h
  by_cases hmax : max ≤ 0
  · rw [if_pos hmax] at h
    rw [← Except.ok.inj h] at hg
    cases hg
  rw [if_neg hmax] at h
  obtain ⟨key, hkey, h⟩ := bind_eq_ok.mp h
  obtain ⟨nonce, hnonce, h⟩ := bind_eq_ok.mp h
  have hset : (s.unusedGenerations.set s.generation { key := key, nonce := nonce }).get g =
      some kept := by
    dsimp only at h
    split_ifs at h
    · rw [← Except.ok.inj h, removeOldGenerations, if_neg hmax] at hg
      exact Record.get_of_get_latest hg
    · rwa [← Except.ok.inj h] at hg
  rw [Record.get_set] at hset
  by_cases hgen : g = s.generation
  · rw [if_pos hgen] at hset
    obtain rfl := Option.some.inj hset
    rw [hgen]
    exact .inr ⟨rfl, hkey, hnonce⟩
  · rw [if_neg hgen] at hset
    exact .inl hset

theorem ratchetOnce_onChain (root : Bytes) (hkdf : RefusesEmptySecret cs.kdf) {config : KeyRetentionConfig}
    {s s' : GenerationSecret} (h : ratchetOnce config cs s = .ok s') :
    s'.generation = s.generation + 1 ∧ s'.free ⊆ s.free ∧
      (OnChain cs root s → OnChain cs root s') := by
  obtain ⟨unused, hunused, h⟩ := bind_eq_ok.mp h
  obtain ⟨next, hnext, h⟩ := bind_eq_ok.mp h
  obtain rfl := Except.ok.inj h
  refine ⟨rfl, ?_, fun hs => ⟨fun _ => ?_, fun g kept hg => ?_⟩⟩
  · rintro g (hg | ⟨kept, hg⟩)
    · exact .inl (Nat.le_of_succ_le hg)
    · rcases get_updateUnusedGenerations hunused hg with hold | ⟨rfl, -, -⟩
      · exact .inr ⟨kept, hold⟩
      · exact .inl le_rfl
  · exact chainSecret_succ (hs.secret (deriveTreeSecret_ne_nil hkdf hnext)) hnext
  · rcases get_updateUnusedGenerations hunused hg with hold | ⟨rfl, hkey, hnonce⟩
    · obtain ⟨hlt, hkept⟩ := hs.unused g kept hold
      exact ⟨Nat.lt_succ_of_lt hlt, hkept⟩
    · have hsecret := hs.secret (deriveTreeSecret_ne_nil hkdf hnext)
      exact ⟨Nat.lt_succ_self _, generationKeyNonce_of hsecret hkey hnonce⟩

theorem repeatAsync_onChain (root : Bytes) (hkdf : RefusesEmptySecret cs.kdf) {config : KeyRetentionConfig}
    {times : ℕ} {s s' : GenerationSecret}
    (h : repeatAsync (ratchetOnce config cs) s times = .ok s') :
    s'.generation = s.generation + times ∧ s'.free ⊆ s.free ∧
      (OnChain cs root s → OnChain cs root s') := by
  induction times generalizing s with
  | zero =>
    obtain rfl := Except.ok.inj h
    exact ⟨rfl, fun _ hg => hg, id⟩
  | succ times ih =>
    obtain ⟨next, hnext, h⟩ := bind_eq_ok.mp h
    obtain ⟨hgen, hfree, hchain⟩ := ratchetOnce_onChain root hkdf hnext
    obtain ⟨hgen', hfree', hchain'⟩ := ih h
    refine ⟨?_, hfree'.trans hfree, hchain' ∘ hchain⟩
    omega

theorem ratchetUntil_onChain (root : Bytes) (hkdf : RefusesEmptySecret cs.kdf) {config : KeyRetentionConfig}
    {s s' : GenerationSecret} {desiredGen : ℕ} (hle : s.generation ≤ desiredGen)
    (h : ratchetUntil s desiredGen config cs = .ok s') :
    s'.generation = desiredGen ∧ s'.free ⊆ s.free ∧ (OnChain cs root s → OnChain cs root s') := by
  simp only [ratchetUntil] at h
  split_ifs at h
  obtain ⟨hgen, hfree, hchain⟩ := repeatAsync_onChain root hkdf h
  refine ⟨?_, hfree, hchain⟩
  omega

/-! ## Giving out a generation -/

/-- A ratchet gives out one generation: the chain's key and nonce, and the
generation is spent. -/
structure Gives (cs : CiphersuiteImpl) (root : Bytes) (ratchet next : GenerationSecret)
    (reuseGuard : Bytes) (result : ConsumeRatchetResult) : Prop where
  onChain : OnChain cs root next
  free : result.generation ∈ ratchet.free
  rest : next.free ⊆ ratchet.free \ {result.generation}
  keyNonce : ∃ derived, generationKeyNonce cs root result.generation = .ok derived ∧
    result.key = derived.key ∧ applyReuseGuard derived.nonce reuseGuard = .ok result.nonce

theorem createRatchetResult_gives (hkdf : RefusesEmptySecret cs.kdf) {node : SecretTreeNode}
    {index : ℤ} {ratchet : GenerationSecret} {reuseGuard : Bytes} {tree : SecretTree}
    {contentType : ContentTypeName} {result : ConsumeRatchetResult}
    (h : createRatchetResult node index ratchet reuseGuard tree contentType cs = .ok result) :
    result.generation = ratchet.generation ∧ ∃ next : GenerationSecret,
      next.generation = ratchet.generation + 1 ∧
      result.newTree = updateArray tree index (some (withRatchet node contentType next)) ∧
      ∀ root, OnChain cs root ratchet → Gives cs root ratchet next reuseGuard result := by
  obtain ⟨nextSecret, hnext, h⟩ := bind_eq_ok.mp h
  obtain ⟨key, hkey, h⟩ := bind_eq_ok.mp h
  obtain ⟨nonce, hnonce, h⟩ := bind_eq_ok.mp h
  obtain ⟨raw, hraw, hguard⟩ := bind_eq_ok.mp hnonce
  obtain rfl := Except.ok.inj h
  refine ⟨rfl, _, rfl, rfl, fun root hs => ?_⟩
  have hsecret := hs.secret (deriveTreeSecret_ne_nil hkdf hnext)
  refine ⟨⟨fun _ => chainSecret_succ hsecret hnext, fun g kept hg => ?_⟩, .inl le_rfl, ?_, ?_⟩
  · obtain ⟨hlt, hkept⟩ := hs.unused g kept hg
    exact ⟨Nat.lt_succ_of_lt hlt, hkept⟩
  · rintro g (hg | ⟨kept, hg⟩)
    · exact ⟨.inl (Nat.le_of_succ_le hg), fun he => absurd he (Nat.ne_of_gt hg)⟩
    · exact ⟨.inr ⟨kept, hg⟩, fun he => absurd he (Nat.ne_of_lt (hs.unused g kept hg).1)⟩
  · exact ⟨_, generationKeyNonce_of hsecret hkey hraw, rfl, hguard⟩

theorem Gives.mono {ratchet ratchet' next : GenerationSecret} {reuseGuard : Bytes}
    {result : ConsumeRatchetResult} (h : Gives cs root ratchet' next reuseGuard result)
    (hfree : ratchet'.free ⊆ ratchet.free) : Gives cs root ratchet next reuseGuard result :=
  ⟨h.onChain, hfree h.free, fun _ hg => ⟨hfree (h.rest hg).1, (h.rest hg).2⟩, h.keyNonce⟩

theorem ratchetToGeneration_gives (hkdf : RefusesEmptySecret cs.kdf) {tree : SecretTree}
    {senderData : SenderData} {contentType : ContentTypeName} {config : KeyRetentionConfig}
    {result : ConsumeRatchetResult}
    (h : ratchetToGeneration tree senderData contentType config cs = .ok result) :
    result.generation = senderData.generation ∧ ∃ node next,
      ratchetsAt tree (leafToNodeIndex senderData.leafIndex) = some node ∧
      result.newTree = updateArray tree (leafToNodeIndex senderData.leafIndex)
        (some (withRatchet node contentType next)) ∧
      ∀ root, OnChain cs root (ratchetForContentType node contentType) →
        Gives cs root (ratchetForContentType node contentType) next senderData.reuseGuard result := by
  simp only [ratchetToGeneration] at h
  cases hnode : ratchetsAt tree (leafToNodeIndex senderData.leafIndex) with
  | none =>
    rw [hnode] at h
    cases h
  | some node =>
    rw [hnode] at h
    by_cases hgen : (ratchetForContentType node contentType).generation > senderData.generation
    · simp only [if_pos hgen] at h
      cases hget : (ratchetForContentType node contentType).unusedGenerations.get
          senderData.generation with
      | none =>
        rw [hget] at h
        cases h
      | some desired =>
        -- A kept generation: the ratchet stays where it is and forgets it.
        rw [hget] at h
        obtain ⟨nonce, hnonce, h⟩ := bind_eq_ok.mp h
        obtain rfl := Except.ok.inj h
        refine ⟨rfl, node, _, rfl, rfl, fun root hs => ?_⟩
        refine ⟨⟨hs.secret, fun g kept hg => ?_⟩, .inr ⟨desired, hget⟩, ?_, ?_⟩
        · rw [Record.get_delete] at hg
          split_ifs at hg
          exact hs.unused g kept hg
        · rintro g (hg | ⟨kept, hg⟩)
          · exact ⟨.inl hg, fun he => absurd he (Nat.ne_of_gt (lt_of_lt_of_le hgen hg))⟩
          · rw [Record.get_delete] at hg
            split_ifs at hg with he
            exact ⟨.inr ⟨kept, hg⟩, he⟩
        · exact ⟨desired, (hs.unused _ _ hget).2, rfl, hnonce⟩
    · -- The current generation or one ahead of it.
      simp only [if_neg hgen] at h
      obtain ⟨current, hcurrent, h⟩ := bind_eq_ok.mp h
      obtain ⟨hresult, next, -, htree, hgives⟩ := createRatchetResult_gives hkdf h
      have huntil := fun root =>
        ratchetUntil_onChain root hkdf (not_lt.mp hgen) hcurrent
      refine ⟨hresult.trans (huntil []).1, node, next, rfl, htree, fun root hs => ?_⟩
      obtain ⟨-, hfree, hchain⟩ := huntil root
      exact (hgives root (hchain hs)).mono hfree

theorem consumeRatchet_gives (hkdf : RefusesEmptySecret cs.kdf) {tree : SecretTree} {index : ℤ}
    {contentType : ContentTypeName} {reuseGuard : Bytes} {result : ConsumeRatchetResult}
    (h : consumeRatchet tree index contentType reuseGuard cs = .ok result) :
    ∃ node : SecretTreeNode, ∃ next : GenerationSecret, ratchetsAt tree index = some node ∧
      result.generation = (ratchetForContentType node contentType).generation ∧
      next.generation = result.generation + 1 ∧
      result.newTree = updateArray tree index (some (withRatchet node contentType next)) ∧
      ∀ root, OnChain cs root (ratchetForContentType node contentType) →
        Gives cs root (ratchetForContentType node contentType) next reuseGuard result := by
  unfold consumeRatchet at h
  cases hnode : ratchetsAt tree index with
  | none =>
    rw [hnode] at h
    cases h
  | some node =>
    rw [hnode] at h
    obtain ⟨hresult, next, hnext, htree, hgives⟩ := createRatchetResult_gives hkdf h
    exact ⟨node, next, rfl, hresult, by rw [hnext, hresult], htree, hgives⟩

end WebcryptoMls
