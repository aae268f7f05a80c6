import WebcryptoMls.LeafSteps

/-!
# Distinct keys

No two nodes of a tree have one HPKE key and no two leaves one signature key. Each leaf a
commit places was compared with all leaves and parent nodes but the leaf it replaces, and
the nodes of a path with the tree, with each other and with the path's leaf, so no commit
that is accepted brings a key in twice.
-/
namespace WebcryptoMls

/-- A key stands in one place. -/
structure DistinctKeys (tree : RatchetTree) : Prop where
  hpke : ∀ n m a b, NodeAt tree n a → NodeAt tree m b →
    getHpkePublicKey a = getHpkePublicKey b → n = m
  signature : ∀ n m a b, HoldsLeaf tree n a → HoldsLeaf tree m b →
    a.signaturePublicKey = b.signaturePublicKey → n = m

def hpkeKeyAt (tree : RatchetTree) (n : ℕ) : Option Bytes := tree[n]?.join.map getHpkePublicKey

def signatureKeyAt (tree : RatchetTree) (n : ℕ) : Option Bytes :=
  (tree[n]?.bind leafOf).map LeafNode.signaturePublicKey

section
variable {t t' : RatchetTree}

theorem hpkeKeyAt_eq_some {n : ℕ} {key : Bytes} :
    hpkeKeyAt t n = some key ↔ ∃ node, NodeAt t n node ∧ getHpkePublicKey node = key := by
  simp [hpkeKeyAt, NodeAt, Option.join_eq_some_iff]

theorem signatureKeyAt_eq_some {n : ℕ} {key : Bytes} :
    signatureKeyAt t n = some key ↔ ∃ leaf, HoldsLeaf t n leaf ∧ leaf.signaturePublicKey = key := by
  simp [signatureKeyAt, HoldsLeaf, Option.bind_eq_some_iff]

/-- No key is read at two places. -/
theorem distinctKeys_iff : DistinctKeys t ↔ ∀ n < t.length, ∀ m < t.length,
    (hpkeKeyAt t n = hpkeKeyAt t m → hpkeKeyAt t n = none ∨ n = m) ∧
    (signatureKeyAt t n = signatureKeyAt t m → signatureKeyAt t n = none ∨ n = m) := by
  constructor
  · intro h n _ m _
    constructor
    · intro heq
      cases hn : hpkeKeyAt t n with
      | none => exact .inl rfl
      | some key =>
        obtain ⟨a, ha, hkey⟩ := hpkeKeyAt_eq_some.mp hn
        obtain ⟨b, hb, hkey'⟩ := hpkeKeyAt_eq_some.mp (heq.symm.trans hn)
        exact .inr (h.hpke n m a b ha hb (hkey.trans hkey'.symm))
    · intro heq
      cases hn : signatureKeyAt t n with
      | none => exact .inl rfl
      | some key =>
        obtain ⟨a, ha, hkey⟩ := signatureKeyAt_eq_some.mp hn
        obtain ⟨b, hb, hkey'⟩ := signatureKeyAt_eq_some.mp (heq.symm.trans hn)
        exact .inr (h.signature n m a b ha hb (hkey.trans hkey'.symm))
  · intro h
    refine ⟨fun n m a b ha hb hkey => ?_, fun n m a b ha hb hkey => ?_⟩
    · have hn := hpkeKeyAt_eq_some.mpr ⟨a, ha, rfl⟩
      have hm := hpkeKeyAt_eq_some.mpr ⟨b, hb, hkey.symm⟩
      have hsame := (h n (List.getElem?_eq_some_iff.mp ha).1 m (List.getElem?_eq_some_iff.mp hb).1).1
      exact (hsame (hn.trans hm.symm)).resolve_left (by simp [hn])
    · have hn := signatureKeyAt_eq_some.mpr ⟨a, ha, rfl⟩
      have hm := signatureKeyAt_eq_some.mpr ⟨b, hb, hkey.symm⟩
      have hsame := (h n (List.getElem?_eq_some_iff.mp ha).1 m (List.getElem?_eq_some_iff.mp hb).1).2
      exact (hsame (hn.trans hm.symm)).resolve_left (by simp [hn])

instance : Decidable (DistinctKeys t) := decidable_of_iff _ distinctKeys_iff.symm

theorem DistinctKeys.kept (h : DistinctKeys t) (hk : Kept t t') : DistinctKeys t' where
  hpke n m a b ha hb hkey := by
    obtain ⟨a', ha', hsame⟩ := hk n a ha
    obtain ⟨b', hb', hsame'⟩ := hk m b hb
    exact h.hpke n m a' b' ha' hb' (by rw [hsame.key, hsame'.key, hkey])
  signature n m a b ha hb hkey := h.signature n m a b (hk.holdsLeaf ha) (hk.holdsLeaf hb) hkey

/-- No other node has the key of a leaf that passed the scan. -/
theorem AcceptedByScan.hpkeKey_ne {leafIndex : Option ℕ} {leaf : LeafNode}
    (h : AcceptedByScan t leafIndex leaf) {n : ℕ} (hn : ¬ isReplaced leafIndex n) {node : Node}
    (hnode : NodeAt t n node) : getHpkePublicKey node ≠ leaf.hpkePublicKey := by
  cases node with
  | leaf l => exact h.hpkeKey n l hn hnode
  | parent p => exact h.parentKey n p hnode

theorem DistinctKeys.placed {leafIndex : Option ℕ} {leaf : LeafNode} {m : ℕ} (h : DistinctKeys t)
    (hscan : AcceptedByScan t leafIndex leaf) (houtside : ∀ n, n ≠ m → ¬ isReplaced leafIndex n)
    (hp : Placed t t' m leaf) : DistinctKeys t' where
  hpke n k a b ha hb hkey := by
    rcases hp n a ha with ⟨rfl, rfl⟩ | ⟨hn, a', ha', hsame⟩ <;>
      rcases hp k b hb with ⟨rfl, rfl⟩ | ⟨hk, b', hb', hsame'⟩
    · rfl
    · refine absurd ?_ (hscan.hpkeKey_ne (houtside k hk) hb')
      rw [hsame'.key, ← hkey]
      rfl
    · refine absurd ?_ (hscan.hpkeKey_ne (houtside n hn) ha')
      rw [hsame.key, hkey]
      rfl
    · exact h.hpke n k a' b' ha' hb' (by rw [hsame.key, hsame'.key, hkey])
  signature n k a b ha hb hkey := by
    rcases hp.holdsLeaf ha with ⟨rfl, rfl⟩ | ⟨hn, ha'⟩ <;>
      rcases hp.holdsLeaf hb with ⟨rfl, rfl⟩ | ⟨hk, hb'⟩
    · rfl
    · exact absurd hkey.symm (hscan.signatureKey k b (houtside k hk) hb')
    · exact absurd hkey (hscan.signatureKey n a (houtside n hn) ha')
    · exact h.signature n k a b ha' hb' hkey

variable {cs : CiphersuiteImpl} {gc : GroupContext} {authService : AuthenticationService}
  {brought : List LeafNode}

theorem DistinctKeys.step (h : DistinctKeys t) (hs : LeafStep cs gc authService t t' brought) :
    DistinctKeys t' := by
  cases hs with
  | kept hk => exact h.kept hk
  | placed hvalid houtside hp =>
    obtain ⟨-, -, -, -, hscan⟩ := (validateLeafNodeCommon_accepts_iff ..).mp hvalid
    exact h.placed hscan houtside hp

theorem DistinctKeys.steps (h : DistinctKeys t) (hs : LeafSteps cs gc authService t brought t') :
    DistinctKeys t' := by
  induction hs with
  | refl t => exact h
  | head first _ ih => exact ih (h.step first)

/-- A parent node with a key no node has. -/
theorem DistinctKeys.written (h : DistinctKeys t) {i : ℤ} {parent : ParentNode}
    (hfresh : parent.hpkePublicKey ∉ keysOf t) :
    DistinctKeys (setNode t i (some (.parent parent))) where
  hpke n m a b ha hb hkey := by
    change getHpkePublicKey (.parent parent) ∉ keysOf t at hfresh
    rcases holds_setNode ha with ⟨hn, hv⟩ | ⟨hn, ha'⟩ <;>
      rcases holds_setNode hb with ⟨hm, hv'⟩ | ⟨hm, hb'⟩
    · omega
    · rw [← Option.some.inj hv] at hkey
      exact absurd (hkey.symm ▸ mem_keysOf hb'.mem) hfresh
    · rw [← Option.some.inj hv'] at hkey
      exact absurd (hkey ▸ mem_keysOf ha'.mem) hfresh
    · exact h.hpke n m a b ha' hb' hkey
  signature n m a b ha hb hkey := by
    rcases holds_setNode ha with ⟨-, hv⟩ | ⟨-, ha'⟩
    · cases hv
    rcases holds_setNode hb with ⟨-, hv⟩ | ⟨-, hb'⟩
    · cases hv
    exact h.signature n m a b ha' hb' hkey

theorem DistinctKeys.nodesWritten {keys : List Bytes} (h : DistinctKeys t)
    (hw : NodesWritten t keys t') (hnodup : keys.Nodup) (hfresh : ∀ key ∈ keys, key ∉ keysOf t) :
    DistinctKeys t' := by
  induction hw with
  | refl t => exact h
  | head i parent _ ih =>
    rw [List.nodup_cons] at hnodup
    rw [List.forall_mem_cons] at hfresh
    refine ih (h.written hfresh.1) hnodup.2 fun key hkey hmem => ?_
    rcases keysOf_setNode _ _ _ hmem with heq | hold
    · change getHpkePublicKey (.parent parent) ∉ _ ∧ _ at hnodup
      exact hnodup.1 (heq ▸ hkey)
    · exact hfresh.2 key hkey hold

end

/-- From a tree whose keys are distinct, every commit that is accepted leads to one,
whoever made it. -/
theorem accepted_commit_keeps_keys_distinct {cs : CiphersuiteImpl}
    {state newState : ClientState cs.signature} {message : MlsHandshakeMessage}
    {pskIndex : PskIndex} {action : IncomingMessageCallback} {currentTime : ℤ}
    {committer : AuthenticatedSender} (hstate : DistinctKeys state.ratchetTree)
    (h : processMessage cs message state pskIndex action currentTime =
      .ok (.newState newState .accept (some committer))) : DistinctKeys newState.ratchetTree := by
  cases processMessage_processed h with
  | removed current => exact hstate
  | followed current f content commit follows =>
    obtain ⟨allProposals, mid, keys, -, hsteps, hnodup, hfresh, hwritten⟩ := follows.steps
    exact (hstate.steps hsteps).nodesWritten hwritten hnodup hfresh

/-- In a group of two the first member commits, and the second receives it. -/
def receivedCommit : Except MlsError (ClientState plainSuite.signature × MlsHandshakeMessage) := do
  let group ← plainGroupOf 1 [2]
  let keyPackage ← plainKeyPackage 2
  match group.welcome with
  | none => throw (usageError "No member was added")
  | some welcome => do
    let state ← joinGroup plainSuite welcome keyPackage (plainPrivateKeys 2) emptyPskIndex {
      ratchetTree := some group.newState.ratchetTree
      clientConfig := plainConfig } 0
    let committed ← createCommit plainSuite group.newState emptyPskIndex
      { wireAsPublicMessage := true } (plainCoins [1]) 0
    match committed.commit.content with
    | .mls_public_message pm => pure (state, .mls_public_message pm)
    | _ => throw (usageError "Not a public message")

/-- Whether the receiver's keys were distinct, and whether it accepted. -/
def receivedOutcome : Except MlsError (Bool × Bool) := do
  let (state, message) ← receivedCommit
  let result ← processMessage plainSuite message state emptyPskIndex acceptAll 0
  let accepted := match result with
    | .newState _ .accept (some _) => true
    | _ => false
  pure (decide (DistinctKeys state.ratchetTree), accepted)

theorem received_commit_keeps_keys_distinct :
    ∃ (state newState : ClientState plainSuite.signature) (message : MlsHandshakeMessage)
      (committer : AuthenticatedSender), DistinctKeys state.ratchetTree ∧
      processMessage plainSuite message state emptyPskIndex acceptAll 0 =
        .ok (.newState newState .accept (some committer)) ∧ DistinctKeys newState.ratchetTree := by
  have heval : receivedOutcome = .ok (true, true) := by decide +kernel
  unfold receivedOutcome at heval
  obtain ⟨r, -, heval⟩ := bind_eq_ok.mp heval
  obtain ⟨state, message⟩ := r
  obtain ⟨result, hresult, heval⟩ := bind_eq_ok.mp heval
  obtain ⟨hbefore, haccepted⟩ := Prod.mk.inj (Except.ok.inj heval)
  have hstate := of_decide_eq_true hbefore
  split at haccepted
  · exact ⟨state, _, message, _, hstate, hresult, accepted_commit_keeps_keys_distinct hstate hresult⟩
  · cases haccepted

end WebcryptoMls
