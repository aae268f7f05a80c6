import WebcryptoMls.RatchetRuns

/-!
# The out-of-order window

Seen from outside, a ratchet is the next generation and a set of generations that
have been stepped over and not yet given. Stepping over a generation adds it to the
set and cuts the set to its largest elements; giving one out of the set removes it.
The record a ratchet keeps its keys in has exactly the keys of that set.
-/
namespace WebcryptoMls
open Records

/-! ## The window -/

@[ext] structure Window where
  next : ℕ
  skipped : Finset ℕ

namespace Window

def start : Window := ⟨0, ∅⟩

/-- The next generation is stepped over. -/
def skip (retain : ℤ) (w : Window) : Window where
  next := w.next + 1
  skipped := largest retain.toNat (insert w.next w.skipped)

/-- A generation can be given if it is ahead and not too far, or has been skipped. -/
def Accepts (forward : ℤ) (w : Window) (g : ℕ) : Prop :=
  w.next ≤ g ∧ (g : ℤ) ≤ w.next + forward ∨ g < w.next ∧ g ∈ w.skipped

instance (forward : ℤ) (w : Window) (g : ℕ) : Decidable (w.Accepts forward g) :=
  inferInstanceAs (Decidable (_ ∨ _))

/-- The window once a generation it accepts has been given. -/
def give (retain : ℤ) (w : Window) (g : ℕ) : Window :=
  if g < w.next then { w with skipped := w.skipped.erase g }
  else ⟨g + 1, ((skip retain)^[g - w.next] w).skipped⟩

def call (retain forward : ℤ) (w : Window) (g : ℕ) : Window :=
  if w.Accepts forward g then w.give retain g else w

/-- As many generations as may be retained, and all of them behind. -/
structure Bounded (retain : ℤ) (w : Window) : Prop where
  card : w.skipped.card ≤ retain.toNat
  behind : ∀ g ∈ w.skipped, g < w.next

variable {retain forward : ℤ} {w : Window}

theorem bounded_start (retain : ℤ) : start.Bounded retain := ⟨by simp [start], by simp [start]⟩

theorem Bounded.skip (h : w.Bounded retain) : (w.skip retain).Bounded retain := by
  refine ⟨card_largest_le .., fun g hg => ?_⟩
  have hmem := largest_subset _ _ hg
  rcases Finset.mem_insert.mp hmem with rfl | hold
  · exact Nat.lt_succ_self _
  · exact Nat.lt_succ_of_lt (h.behind g hold)

theorem next_iterate_skip (retain : ℤ) (w : Window) (n : ℕ) :
    ((Window.skip retain)^[n] w).next = w.next + n := by
  induction n generalizing w with
  | zero => rfl
  | succ n ih =>
    rw [Function.iterate_succ_apply, ih]
    simp only [Window.skip]
    omega

theorem Bounded.iterate_skip (h : w.Bounded retain) (n : ℕ) :
    ((Window.skip retain)^[n] w).Bounded retain := by
  induction n generalizing w with
  | zero => exact h
  | succ n ih =>
    rw [Function.iterate_succ_apply]
    exact ih h.skip

theorem Bounded.give (h : w.Bounded retain) (g : ℕ) : (w.give retain g).Bounded retain := by
  unfold Window.give
  split_ifs with hlt
  · exact ⟨(Finset.card_erase_le ..).trans h.card,
      fun g' hg' => h.behind g' (Finset.mem_of_mem_erase hg')⟩
  · have hw := h.iterate_skip (g - w.next)
    refine ⟨hw.card, fun g' hg' => ?_⟩
    have hlt' := hw.behind g' hg'
    rw [next_iterate_skip] at hlt'
    exact (show g' < g + 1 by omega)

theorem Bounded.call (h : w.Bounded retain) (g : ℕ) : (w.call retain forward g).Bounded retain := by
  unfold Window.call
  split_ifs
  · exact h.give g
  · exact h

theorem next_give (g : ℕ) : (w.give retain g).next = max w.next (g + 1) := by
  unfold give
  split_ifs with hlt
  · exact (max_eq_left (Nat.succ_le_of_lt hlt)).symm
  · exact (show g + 1 = max w.next (g + 1) by omega)

end Window

/-! ## A ratchet and its window -/

/-- What the ratchets need of the primitives: a chain secret is of the size of the
digest and expands to what is asked, and a nonce has room for the reuse guard. -/
structure RatchetCrypto (cs : CiphersuiteImpl) : Prop where
  expand : ∀ secret info, secret.length = cs.kdf.size →
    ∀ length ∈ [cs.kdf.size, cs.hpke.keyLength, cs.hpke.nonceLength],
      ∃ derived, cs.kdf.expand secret info length = .ok derived ∧ derived.length = length
  lengths : ∀ length ∈ [cs.kdf.size, cs.hpke.keyLength, cs.hpke.nonceLength], length < 2 ^ 16
  guard : 4 ≤ cs.hpke.nonceLength

/-- A ratchet as `createRatchetRoot` leaves it. -/
structure GenerationSecret.Fresh (cs : CiphersuiteImpl) (ratchet : GenerationSecret) : Prop where
  secret : ratchet.secret.length = cs.kdf.size
  generation : ratchet.generation = 0
  unused : ratchet.unusedGenerations = .empty

structure Tracks (cs : CiphersuiteImpl) (ratchet : GenerationSecret) (w : Window) : Prop where
  next : ratchet.generation = w.next
  skipped : ratchet.unusedGenerations.keySet = w.skipped
  secret : ratchet.secret.length = cs.kdf.size
  nonces : ∀ g kept, ratchet.unusedGenerations.get g = some kept → 4 ≤ kept.nonce.length

variable {cs : CiphersuiteImpl} {config : KeyRetentionConfig} {w : Window}

theorem GenerationSecret.Fresh.tracks {ratchet : GenerationSecret} (h : ratchet.Fresh cs) :
    Tracks cs ratchet .start := by
  refine ⟨h.generation, ?_, h.secret, fun g kept hg => ?_⟩
  · rw [h.unused]
    rfl
  · rw [h.unused] at hg
    cases hg

theorem encodeVarLenData_short {data : Bytes} (h : data.length < 64) :
    encodeVarLenData data = .ok (UInt8.ofNat data.length :: data) := by
  unfold encodeVarLenData
  rw [encodeLength_short h]
  rfl

theorem deriveTreeSecret_ok (hcs : RatchetCrypto cs) {secret : Bytes} {generation : ℕ}
    (hsecret : secret.length = cs.kdf.size) (hgen : generation < 2 ^ 32) {label : String}
    (hlabel : (encodeText ("MLS 1.0 " ++ label)).length < 64) (length : ℕ)
    (hlength : length ∈ [cs.kdf.size, cs.hpke.keyLength, cs.hpke.nonceLength]) :
    ∃ derived, deriveTreeSecret secret label generation length cs.kdf = .ok derived ∧
      derived.length = length := by
  have hcontext : (bigEndian 4 generation).length < 64 := by
    rw [length_bigEndian]
    decide
  have hlt := hcs.lengths length hlength
  unfold deriveTreeSecret expandWithLabel encodeLabelled encodeUint32 encodeUint16
  rw [encodeUint_of_lt (by simpa using hgen), ok_bind, encodeUint_of_lt (by simpa using hlt), ok_bind,
    encodeVarLenData_short hlabel, ok_bind, encodeVarLenData_short hcontext, ok_bind]
  exact hcs.expand _ _ hsecret length hlength

theorem deriveKey_ok (hcs : RatchetCrypto cs) {secret : Bytes} {generation : ℕ}
    (hsecret : secret.length = cs.kdf.size) (hgen : generation < 2 ^ 32) :
    ∃ key, deriveKey secret generation cs = .ok key ∧ key.length = cs.hpke.keyLength :=
  deriveTreeSecret_ok hcs hsecret hgen (by decide) _ (by simp)

theorem deriveNonce_ok (hcs : RatchetCrypto cs) {secret : Bytes} {generation : ℕ}
    (hsecret : secret.length = cs.kdf.size) (hgen : generation < 2 ^ 32) :
    ∃ nonce, deriveNonce secret generation cs = .ok nonce ∧
      nonce.length = cs.hpke.nonceLength :=
  deriveTreeSecret_ok hcs hsecret hgen (by decide) _ (by simp)

theorem deriveChainSecret_ok (hcs : RatchetCrypto cs) {secret : Bytes} {generation : ℕ}
    (hsecret : secret.length = cs.kdf.size) (hgen : generation < 2 ^ 32) :
    ∃ next, deriveTreeSecret secret "secret" generation cs.kdf.size cs.kdf = .ok next ∧
      next.length = cs.kdf.size :=
  deriveTreeSecret_ok hcs hsecret hgen (by decide) _ (by simp)

/-! ## Stepping over a generation -/

theorem keySet_removeOldGenerations (generations : Record ℕ GenerationKeyNonce) (max : ℤ) :
    (removeOldGenerations generations max).keySet = largest max.toNat generations.keySet := by
  unfold removeOldGenerations
  split_ifs with hmax
  · rw [Int.toNat_of_nonpos hmax, largest_zero]
    rfl
  · exact Record.keySet_latest ..

/-- Cutting is skipped only where it would remove nothing. -/
theorem updateUnusedGenerations_tracks (hcs : RatchetCrypto cs) {s : GenerationSecret} (retain : ℤ)
    (h : Tracks cs s w) (hgen : s.generation < 2 ^ 32) :
    ∃ unused, updateUnusedGenerations s retain cs = .ok unused ∧
      unused.keySet = (w.skip retain).skipped ∧
      ∀ g kept, unused.get g = some kept → 4 ≤ kept.nonce.length := by
  unfold updateUnusedGenerations
  split_ifs with hretain
  · refine ⟨_, rfl, ?_, fun g kept hg => absurd hg (by simp)⟩
    rw [Window.skip, Int.toNat_of_nonpos hretain, largest_zero]
    rfl
  obtain ⟨key, hkey, -⟩ := deriveKey_ok hcs h.secret hgen
  obtain ⟨nonce, hnonce, hlen⟩ := deriveNonce_ok hcs h.secret hgen
  rw [hkey, ok_bind, hnonce, ok_bind]
  have hset : (s.unusedGenerations.set s.generation { key := key, nonce := nonce }).keySet =
      insert w.next w.skipped := by
    rw [Record.keySet_set, h.next, h.skipped]
  have hnonces : ∀ g kept,
      (s.unusedGenerations.set s.generation { key := key, nonce := nonce }).get g = some kept →
        4 ≤ kept.nonce.length := by
    intro g kept hg
    rw [Record.get_set] at hg
    split_ifs at hg with he
    · rw [← Option.some.inj hg, hlen]
      exact hcs.guard
    · exact h.nonces g kept hg
  dsimp only
  split_ifs with hsize
  · refine ⟨_, rfl, ?_, fun g kept hg => hnonces g kept ?_⟩
    · rw [keySet_removeOldGenerations, hset]
      rfl
    · rw [removeOldGenerations, if_neg hretain] at hg
      exact Record.get_of_get_latest hg
  · refine ⟨_, rfl, ?_, hnonces⟩
    rw [Window.skip, hset, largest_of_card_le]
    rw [← hset, Record.card_keySet]
    omega

theorem ratchetOnce_tracks (config : KeyRetentionConfig) (hcs : RatchetCrypto cs)
    {s : GenerationSecret} (h : Tracks cs s w)
    (hgen : s.generation < 2 ^ 32) :
    ∃ s', ratchetOnce config cs s = .ok s' ∧
      Tracks cs s' (w.skip config.retainKeysForGenerations) := by
  obtain ⟨unused, hunused, hskipped, hnonces⟩ :=
    updateUnusedGenerations_tracks hcs config.retainKeysForGenerations h hgen
  obtain ⟨next, hnext, hlen⟩ := deriveChainSecret_ok hcs h.secret hgen
  unfold ratchetOnce
  rw [hunused, ok_bind, hnext, ok_bind]
  exact ⟨_, rfl, congrArg (· + 1) h.next, hskipped, hlen, hnonces⟩

theorem repeatAsync_tracks (hcs : RatchetCrypto cs) {times : ℕ} {s : GenerationSecret}
    (h : Tracks cs s w) (hgen : s.generation + times ≤ 2 ^ 32) :
    ∃ s', repeatAsync (ratchetOnce config cs) s times = .ok s' ∧
      Tracks cs s' ((Window.skip config.retainKeysForGenerations)^[times] w) := by
  induction times generalizing s w with
  | zero => exact ⟨s, rfl, h⟩
  | succ times ih =>
    obtain ⟨next, hnext, htracks⟩ := ratchetOnce_tracks config hcs h (by omega)
    have hnext' : next.generation = w.next + 1 := htracks.next
    have hgen' : next.generation + times ≤ 2 ^ 32 := by
      rw [hnext', ← h.next]
      omega
    obtain ⟨s', hs', htracks'⟩ := ih htracks hgen'
    rw [repeatAsync, hnext, ok_bind, Function.iterate_succ_apply]
    exact ⟨s', hs', htracks'⟩

/-! ## A call -/

/-- The generation and the reuse guard are read off the wire. -/
structure SenderData.Decoded (senderData : SenderData) : Prop where
  generation : senderData.generation < 2 ^ 32
  reuseGuard : senderData.reuseGuard.length = 4

theorem applyReuseGuard_ok {nonce reuseGuard : Bytes} (hnonce : 4 ≤ nonce.length)
    (hguard : reuseGuard.length = 4) : ∃ guarded, applyReuseGuard nonce reuseGuard = .ok guarded := by
  unfold applyReuseGuard
  rw [if_pos ⟨hnonce, hguard.ge⟩]
  exact ⟨_, rfl⟩

theorem ratchetUntil_tracks (hcs : RatchetCrypto cs) {s : GenerationSecret} {g : ℕ}
    (h : Tracks cs s w) (hle : w.next ≤ g)
    (hforward : (g : ℤ) ≤ w.next + config.maximumForwardRatchetSteps) (hgen : g < 2 ^ 32) :
    ∃ s', ratchetUntil s g config cs = .ok s' ∧
      Tracks cs s' ((Window.skip config.retainKeysForGenerations)^[g - w.next] w) := by
  have hdiff : ((g : ℤ) - s.generation).toNat = g - w.next := by
    rw [h.next]
    omega
  have hnot : ¬ (g : ℤ) - s.generation > config.maximumForwardRatchetSteps := by
    rw [h.next]
    omega
  simp only [ratchetUntil, if_neg hnot, hdiff]
  exact repeatAsync_tracks hcs h (by rw [h.next]; omega)

/-- The current generation is given and the ratchet moves on. -/
theorem createRatchetResult_tracks (hcs : RatchetCrypto cs) (node : SecretTreeNode) (index : ℤ)
    (tree : SecretTree) (contentType : ContentTypeName) {s : GenerationSecret} {reuseGuard : Bytes}
    (h : Tracks cs s w) (hgen : s.generation < 2 ^ 32) (hguard : reuseGuard.length = 4) :
    ∃ result next, createRatchetResult node index s reuseGuard tree contentType cs = .ok result ∧
      result.generation = w.next ∧
      result.newTree = updateArray tree index (some (withRatchet node contentType next)) ∧
      Tracks cs next ⟨w.next + 1, w.skipped⟩ := by
  obtain ⟨nextSecret, hnext, hlen⟩ := deriveChainSecret_ok hcs h.secret hgen
  obtain ⟨key, hkey, -⟩ := deriveKey_ok hcs h.secret hgen
  obtain ⟨nonce, hnonce, hnonceLen⟩ := deriveNonce_ok hcs h.secret hgen
  obtain ⟨guarded, hguarded⟩ := applyReuseGuard_ok (hnonceLen ▸ hcs.guard) hguard
  unfold createRatchetResult derivePrivateMessageNonce
  rw [hnext, ok_bind]
  dsimp only
  rw [hkey, ok_bind, hnonce, ok_bind, hguarded, ok_bind]
  exact ⟨_, _, rfl, h.next, rfl, ⟨congrArg (· + 1) h.next, h.skipped, hlen, h.nonces⟩⟩

/-- A generation that has been skipped is taken out of the record. -/
theorem ratchetToGeneration_skipped {tree : SecretTree} {senderData : SenderData}
    {contentType : ContentTypeName} {node : SecretTreeNode}
    (hnode : ratchetsAt tree (leafToNodeIndex senderData.leafIndex) = some node)
    (h : Tracks cs (node.ratchet (ratchetName contentType)) w) (hdata : senderData.Decoded)
    (hpast : senderData.generation < w.next) (hmem : senderData.generation ∈ w.skipped) :
    ∃ result next, ratchetToGeneration tree senderData contentType config cs = .ok result ∧
      result.generation = senderData.generation ∧
      result.newTree = updateArray tree (leafToNodeIndex senderData.leafIndex)
        (some (withRatchet node contentType next)) ∧
      Tracks cs next (w.give config.retainKeysForGenerations senderData.generation) := by
  obtain ⟨desired, hget⟩ := Record.mem_keySet.mp (h.skipped ▸ hmem)
  obtain ⟨nonce, hnonce⟩ := applyReuseGuard_ok (h.nonces _ _ hget) hdata.reuseGuard
  have hgen : (node.ratchet (ratchetName contentType)).generation > senderData.generation := by
    rwa [h.next]
  simp only [ratchetToGeneration, hnode, ratchetForContentType, if_pos hgen, hget, hnonce, ok_bind]
  refine ⟨_, _, rfl, rfl, rfl, ?_⟩
  rw [Window.give, if_pos hpast]
  refine ⟨h.next, ?_, h.secret, fun g kept hg => ?_⟩
  · rw [Record.keySet_delete, h.skipped]
  · rw [Record.get_delete] at hg
    split_ifs at hg
    exact h.nonces g kept hg

/-- A generation ahead is reached by stepping over those before it. -/
theorem ratchetToGeneration_ahead (hcs : RatchetCrypto cs) {tree : SecretTree}
    {senderData : SenderData} {contentType : ContentTypeName} {node : SecretTreeNode}
    (hnode : ratchetsAt tree (leafToNodeIndex senderData.leafIndex) = some node)
    (h : Tracks cs (node.ratchet (ratchetName contentType)) w) (hdata : senderData.Decoded)
    (hle : w.next ≤ senderData.generation)
    (hforward : (senderData.generation : ℤ) ≤ w.next + config.maximumForwardRatchetSteps) :
    ∃ result next, ratchetToGeneration tree senderData contentType config cs = .ok result ∧
      result.generation = senderData.generation ∧
      result.newTree = updateArray tree (leafToNodeIndex senderData.leafIndex)
        (some (withRatchet node contentType next)) ∧
      Tracks cs next (w.give config.retainKeysForGenerations senderData.generation) := by
  obtain ⟨current, hcurrent, htracks⟩ := ratchetUntil_tracks hcs h hle hforward hdata.generation
  have hnext : ((Window.skip config.retainKeysForGenerations)^[senderData.generation - w.next]
      w).next = senderData.generation := by
    rw [Window.next_iterate_skip]
    omega
  have hcurrentGen : current.generation < 2 ^ 32 := by
    rw [htracks.next, hnext]
    exact hdata.generation
  obtain ⟨result, next, hresult, hgiven, htree, hnew⟩ :=
    createRatchetResult_tracks hcs node (leafToNodeIndex senderData.leafIndex) tree contentType
      htracks hcurrentGen hdata.reuseGuard
  have hgen : ¬ (node.ratchet (ratchetName contentType)).generation > senderData.generation := by
    rw [h.next]
    omega
  simp only [ratchetToGeneration, hnode, ratchetForContentType, if_neg hgen, hcurrent, ok_bind]
  refine ⟨result, next, hresult, hgiven.trans hnext, htree, ?_⟩
  rw [Window.give, if_neg (not_lt.mpr hle)]
  rwa [hnext] at hnew

theorem ratchetToGeneration_accepts (hcs : RatchetCrypto cs) {tree : SecretTree}
    {senderData : SenderData} {contentType : ContentTypeName} {node : SecretTreeNode}
    (hnode : ratchetsAt tree (leafToNodeIndex senderData.leafIndex) = some node)
    (h : Tracks cs (node.ratchet (ratchetName contentType)) w) (hdata : senderData.Decoded)
    (haccepts : w.Accepts config.maximumForwardRatchetSteps senderData.generation) :
    ∃ result next, ratchetToGeneration tree senderData contentType config cs = .ok result ∧
      result.generation = senderData.generation ∧
      result.newTree = updateArray tree (leafToNodeIndex senderData.leafIndex)
        (some (withRatchet node contentType next)) ∧
      Tracks cs next (w.give config.retainKeysForGenerations senderData.generation) := by
  rcases haccepts with ⟨hle, hforward⟩ | ⟨hpast, hmem⟩
  · exact ratchetToGeneration_ahead hcs hnode h hdata hle hforward
  · exact ratchetToGeneration_skipped hnode h hdata hpast hmem

theorem ratchetToGeneration_refuses {tree : SecretTree} {senderData : SenderData}
    {contentType : ContentTypeName} {node : SecretTreeNode}
    (hnode : ratchetsAt tree (leafToNodeIndex senderData.leafIndex) = some node)
    (h : Tracks cs (node.ratchet (ratchetName contentType)) w)
    (hrefuses : ¬ w.Accepts config.maximumForwardRatchetSteps senderData.generation) :
    ∃ e, ratchetToGeneration tree senderData contentType config cs = .error e := by
  simp only [Window.Accepts, not_or, not_and] at hrefuses
  simp only [ratchetToGeneration, hnode, ratchetForContentType]
  by_cases hpast : senderData.generation < w.next
  · have hgen : (node.ratchet (ratchetName contentType)).generation > senderData.generation := by
      rwa [h.next]
    have hget : (node.ratchet (ratchetName contentType)).unusedGenerations.get
        senderData.generation = none := by
      rw [Option.eq_none_iff_forall_ne_some]
      intro kept hkept
      exact hrefuses.2 hpast (h.skipped ▸ Record.mem_keySet.mpr ⟨kept, hkept⟩)
    simp only [if_pos hgen, hget]
    exact ⟨_, rfl⟩
  · have hgen : ¬ (node.ratchet (ratchetName contentType)).generation > senderData.generation := by
      rwa [h.next, gt_iff_lt]
    have hfar : (senderData.generation : ℤ) -
        ((node.ratchet (ratchetName contentType)).generation : ℤ) >
          config.maximumForwardRatchetSteps := by
      have := hrefuses.1 (not_lt.mp hpast)
      rw [h.next]
      omega
    simp only [if_neg hgen, ratchetUntil, if_pos hfar]
    exact ⟨_, rfl⟩

/-! ## Runs -/

structure RatchetCall where
  senderData : SenderData
  contentType : ContentTypeName

def RatchetCall.index (call : RatchetCall) : ℤ := leafToNodeIndex call.senderData.leafIndex

def RatchetCall.ratchet (call : RatchetCall) : RatchetName := ratchetName call.contentType

/-- A tree that has been called on, and what its ratchets have given, in order. -/
structure CallRun where
  tree : SecretTree
  given : List Slot

/-- A call that throws leaves the tree as it is. -/
def CallRun.call (config : KeyRetentionConfig) (cs : CiphersuiteImpl) (run : CallRun)
    (call : RatchetCall) : CallRun :=
  match ratchetToGeneration run.tree call.senderData call.contentType config cs with
  | .ok result => ⟨result.newTree, run.given ++ [⟨call.index, call.ratchet, result.generation⟩]⟩
  | .error _ => run

def runCalls (config : KeyRetentionConfig) (cs : CiphersuiteImpl) (tree : SecretTree)
    (calls : List RatchetCall) : CallRun :=
  calls.foldl (CallRun.call config cs) ⟨tree, []⟩

/-- The generations one ratchet has given. -/
def CallRun.givenBy (index : ℤ) (name : RatchetName) (run : CallRun) : List ℕ :=
  (run.given.filter fun slot => slot.index = index ∧ slot.ratchet = name).map Slot.generation

/-- The window of one ratchet after the calls made for it. -/
def windowAfter (config : KeyRetentionConfig) (index : ℤ) (name : RatchetName)
    (calls : List RatchetCall) : Window :=
  (calls.filter fun call => call.index = index ∧ call.ratchet = name).foldl (fun w call =>
    w.call config.retainKeysForGenerations config.maximumForwardRatchetSteps
      call.senderData.generation) .start

/-- One more than the largest of some generations, zero if there is none. -/
structure NextOf (given : List ℕ) (next : ℕ) : Prop where
  above : ∀ g ∈ given, g < next
  attained : next ≠ 0 → ∃ g ∈ given, next = g + 1

theorem NextOf.append {given : List ℕ} {next : ℕ} (h : NextOf given next) (g : ℕ) :
    NextOf (given ++ [g]) (max next (g + 1)) := by
  refine ⟨fun g' hg' => ?_, fun _ => ?_⟩
  · rcases List.mem_append.mp hg' with hold | hnew
    · exact lt_max_of_lt_left (h.above g' hold)
    · rw [List.mem_singleton.mp hnew]
      exact lt_max_of_lt_right (Nat.lt_succ_self g)
  · rcases Nat.lt_or_ge (g + 1) next with hlt | hge
    · obtain ⟨g', hmem, heq⟩ := h.attained (by omega)
      exact ⟨g', List.mem_append_left _ hmem, by omega⟩
    · exact ⟨g, by simp, by omega⟩

/-- One ratchet of a run and its window. -/
structure InStep (config : KeyRetentionConfig) (cs : CiphersuiteImpl) (index : ℤ)
    (name : RatchetName) (run : CallRun) (w : Window) : Prop where
  tracks : ∃ node, ratchetsAt run.tree index = some node ∧ Tracks cs (node.ratchet name) w
  bounded : w.Bounded config.retainKeysForGenerations
  next : NextOf (run.givenBy index name) w.next

variable {index : ℤ} {name : RatchetName} {run : CallRun} {call : RatchetCall}

theorem ratchetToGeneration_newTree {tree : SecretTree} {senderData : SenderData}
    {contentType : ContentTypeName} {result : ConsumeRatchetResult}
    (h : ratchetToGeneration tree senderData contentType config cs = .ok result) :
    ∃ node next, ratchetsAt tree (leafToNodeIndex senderData.leafIndex) = some node ∧
      result.newTree = updateArray tree (leafToNodeIndex senderData.leafIndex)
        (some (withRatchet node contentType next)) := by
  simp only [ratchetToGeneration] at h
  cases hnode : ratchetsAt tree (leafToNodeIndex senderData.leafIndex) with
  | none =>
    rw [hnode] at h
    cases h
  | some node =>
    rw [hnode] at h
    dsimp only at h
    split_ifs at h
    · cases hget : (ratchetForContentType node contentType).unusedGenerations.get
          senderData.generation with
      | none =>
        rw [hget] at h
        cases h
      | some desired =>
        rw [hget] at h
        obtain ⟨nonce, -, h⟩ := bind_eq_ok.mp h
        obtain rfl := Except.ok.inj h
        exact ⟨node, _, rfl, rfl⟩
    · obtain ⟨current, -, h⟩ := bind_eq_ok.mp h
      obtain ⟨nextSecret, -, h⟩ := bind_eq_ok.mp h
      obtain ⟨key, -, h⟩ := bind_eq_ok.mp h
      obtain ⟨nonce, -, h⟩ := bind_eq_ok.mp h
      obtain rfl := Except.ok.inj h
      exact ⟨node, _, rfl, rfl⟩

/-- A call for another ratchet changes nothing here. -/
theorem InStep.call_other (h : InStep config cs index name run w)
    (hother : ¬ (call.index = index ∧ call.ratchet = name)) :
    InStep config cs index name (run.call config cs call) w := by
  unfold CallRun.call
  cases hcall : ratchetToGeneration run.tree call.senderData call.contentType config cs with
  | error e => exact h
  | ok result =>
    obtain ⟨node, hnode, htracks⟩ := h.tracks
    obtain ⟨node', next, hnode', htree⟩ := ratchetToGeneration_newTree hcall
    refine ⟨?_, h.bounded, ?_⟩
    · dsimp only
      rw [htree, ratchetsAt_updateArray hnode']
      split_ifs with heq
      · obtain rfl := Option.some.inj (hnode.symm.trans (heq ▸ hnode'))
        refine ⟨_, rfl, ?_⟩
        rw [ratchet_withRatchet, if_neg fun hname => hother ⟨heq.symm, hname.symm⟩]
        exact htracks
      · exact ⟨node, hnode, htracks⟩
    · have hnone : CallRun.givenBy index name
          ⟨result.newTree, run.given ++ [⟨call.index, call.ratchet, result.generation⟩]⟩ =
            run.givenBy index name := by
        simp only [CallRun.givenBy, List.filter_append]
        simp [hother]
      exact hnone ▸ h.next

theorem InStep.call_same (hcs : RatchetCrypto cs) (h : InStep config cs index name run w)
    (hdata : call.senderData.Decoded) (hindex : call.index = index) (hname : call.ratchet = name) :
    InStep config cs index name (run.call config cs call)
      (w.call config.retainKeysForGenerations config.maximumForwardRatchetSteps
        call.senderData.generation) := by
  subst hindex hname
  obtain ⟨node, hnode, htracks⟩ := h.tracks
  refine ⟨?_, h.bounded.call _, ?_⟩ <;> unfold CallRun.call Window.call
  all_goals by_cases haccepts : w.Accepts config.maximumForwardRatchetSteps call.senderData.generation
  · obtain ⟨result, next, hresult, -, htree, hnext⟩ :=
      ratchetToGeneration_accepts hcs hnode htracks hdata haccepts
    rw [hresult, if_pos haccepts]
    dsimp only
    refine ⟨withRatchet node call.contentType next, ?_, ?_⟩
    · rw [htree, ← RatchetCall.index, ratchetsAt_updateArray hnode, if_pos rfl]
    · rw [ratchet_withRatchet, RatchetCall.ratchet, if_pos rfl]
      exact hnext
  · obtain ⟨e, he⟩ := ratchetToGeneration_refuses hnode htracks haccepts
    rw [he, if_neg haccepts]
    exact ⟨node, hnode, htracks⟩
  · obtain ⟨result, next, hresult, hgen, -, -⟩ :=
      ratchetToGeneration_accepts hcs hnode htracks hdata haccepts
    rw [hresult, if_pos haccepts, Window.next_give]
    have := h.next.append call.senderData.generation
    simpa [CallRun.givenBy, List.filter_append, hgen] using this
  · obtain ⟨e, he⟩ := ratchetToGeneration_refuses hnode htracks haccepts
    rw [he, if_neg haccepts]
    exact h.next

theorem InStep.calls (hcs : RatchetCrypto cs) {calls : List RatchetCall}
    (h : InStep config cs index name run w) (hdata : ∀ call ∈ calls, call.senderData.Decoded) :
    InStep config cs index name (calls.foldl (CallRun.call config cs) run)
      ((calls.filter fun call => call.index = index ∧ call.ratchet = name).foldl (fun w call =>
        w.call config.retainKeysForGenerations config.maximumForwardRatchetSteps
          call.senderData.generation) w) := by
  induction calls generalizing run w with
  | nil => exact h
  | cons call calls ih =>
    rw [List.forall_mem_cons] at hdata
    rw [List.foldl_cons, List.filter_cons]
    by_cases hsame : call.index = index ∧ call.ratchet = name
    · rw [if_pos (decide_eq_true hsame), List.foldl_cons]
      exact ih (h.call_same hcs hdata.1 hsame.1 hsame.2) hdata.2
    · rw [if_neg (by simpa using hsame)]
      exact ih (h.call_other hsame) hdata.2

/-- After any calls, a ratchet that was fresh holds exactly the keys of its window,
gives exactly what the window accepts, and keeps no more than it may. -/
theorem ratchetToGeneration_refines_window (hcs : RatchetCrypto cs) {tree : SecretTree}
    {node : SecretTreeNode} {calls : List RatchetCall} (hnode : ratchetsAt tree index = some node)
    (hfresh : (node.ratchet name).Fresh cs) (hcalls : ∀ call ∈ calls, call.senderData.Decoded) :
    ∃ node', ratchetsAt (runCalls config cs tree calls).tree index = some node' ∧
      (node'.ratchet name).generation = (windowAfter config index name calls).next ∧
      (node'.ratchet name).unusedGenerations.keySet =
        (windowAfter config index name calls).skipped ∧
      (∀ call : RatchetCall, call.senderData.Decoded → call.index = index → call.ratchet = name →
        ((∃ result, ratchetToGeneration (runCalls config cs tree calls).tree call.senderData
            call.contentType config cs = .ok result) ↔
          (windowAfter config index name calls).Accepts config.maximumForwardRatchetSteps
            call.senderData.generation)) ∧
      ((windowAfter config index name calls).skipped.card : ℤ) ≤
        max config.retainKeysForGenerations 0 ∧
      (∀ g ∈ (windowAfter config index name calls).skipped,
        g < (windowAfter config index name calls).next) ∧
      NextOf ((runCalls config cs tree calls).givenBy index name)
        (windowAfter config index name calls).next := by
  have hstart : InStep config cs index name ⟨tree, []⟩ .start :=
    ⟨⟨node, hnode, hfresh.tracks⟩, Window.bounded_start _,
      ⟨by simp [CallRun.givenBy], by simp [Window.start]⟩⟩
  have h := hstart.calls hcs hcalls
  obtain ⟨node', hnode', htracks⟩ := h.tracks
  have hcard := h.bounded.card
  refine ⟨node', hnode', htracks.next, htracks.skipped, ?_, by unfold windowAfter; omega,
    h.bounded.behind, h.next⟩
  rintro call hdata rfl rfl
  constructor
  · rintro ⟨result, hresult⟩
    by_contra hrefuses
    obtain ⟨e, he⟩ := ratchetToGeneration_refuses hnode' htracks hrefuses
    exact nomatch hresult.symm.trans he
  · intro haccepts
    obtain ⟨result, next, hresult, -⟩ :=
      ratchetToGeneration_accepts hcs hnode' htracks hdata haccepts
    exact ⟨result, hresult⟩

/-- The plain suite with a key derivation that gives as many bytes as it is asked for. -/
def measuredSuite : CiphersuiteImpl where
  hash := plainHash
  hpke := plainSuite.hpke
  signature := plainSuite.signature
  kdf := {
    extract := fun salt ikm => pure (salt ++ ikm)
    expand := fun secret info length =>
      pure ((secret ++ info ++ List.replicate length 0).take length)
    size := 1 }
  name := plainSuite.name

theorem ratchetCrypto_measuredSuite : RatchetCrypto measuredSuite := by
  refine ⟨fun secret info _ length _ => ⟨_, rfl, ?_⟩, by decide, by decide⟩
  rw [List.length_take, List.length_append, List.length_replicate]
  omega

/-- Generation 3 comes first and 1 after it: 2 is kept, and 0 is given up. -/
theorem ratchetToGeneration_refines_window_gap : ∃ node : SecretTreeNode,
    ratchetsAt (runCalls ⟨2, 0, 5⟩ measuredSuite [some ⟨⟨[7], 0, .empty⟩, ⟨[8], 0, .empty⟩⟩]
      [⟨⟨0, 3, [1, 2, 3, 4]⟩, .application⟩, ⟨⟨0, 1, [5, 6, 7, 8]⟩, .application⟩]).tree 0 =
        some node ∧
      node.application.generation = 4 ∧ node.application.unusedGenerations.keySet = {2} := by
  obtain ⟨node, hnode, hnext, hskipped, -⟩ :=
    @ratchetToGeneration_refines_window measuredSuite ⟨2, 0, 5⟩ 0 .application
      ratchetCrypto_measuredSuite [some ⟨⟨[7], 0, .empty⟩, ⟨[8], 0, .empty⟩⟩] _
      [⟨⟨0, 3, [1, 2, 3, 4]⟩, .application⟩, ⟨⟨0, 1, [5, 6, 7, 8]⟩, .application⟩] rfl
      ⟨rfl, rfl, rfl⟩ (by
        intro call hcall
        simp only [List.mem_cons, List.not_mem_nil, or_false] at hcall
        rcases hcall with rfl | rfl <;> exact ⟨by decide, rfl⟩)
  exact ⟨node, hnode, hnext.trans (by decide), hskipped.trans (by decide)⟩

end WebcryptoMls
