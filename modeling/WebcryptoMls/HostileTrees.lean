import WebcryptoMls.Throws
import WebcryptoMls.TreeValidation
import WebcryptoMls.ParentHashCoverage

/-!
# Hostile trees

What a peer sends as a tree is refused, or joined, and nothing else: the decoded tree
is small enough for the tree mathematics, and once its nodes are known to stand in
their places no step of the validation meets an error of the library's own. Nothing
is assumed about parent hashes, unmerged leaves or which nodes are blank.
-/
namespace WebcryptoMls
open PrefixCode
open InOrder (index size Below)

/-! ## Sound trees -/

/-- A tree of a size that can be decoded, with every node in its place and every
unmerged leaf inside the tree. -/
structure Sound (d : ℕ) (t : RatchetTree) : Prop where
  length : t.length = size d
  depth : d ≤ 29
  typed : Typed t
  inRange : ∀ {k j p}, slot t k j = some (.parent p) → ∀ u ∈ p.unmergedLeaves, u < 2 ^ d

/-- An assignment with leaves and parents in their places. -/
structure InPlace (s : Places) : Prop where
  leaf : ∀ j, ∃ o : Option LeafNode, s 0 j = o.map .leaf
  parent : ∀ k j, ∃ o : Option ParentNode, s (k + 1) j = o.map .parent

theorem Typed.inPlace {t : RatchetTree} (ht : Typed t) : InPlace (slot t) where
  leaf j := by
    cases hs : slot t 0 j with
    | none => exact ⟨none, rfl⟩
    | some n =>
      obtain ⟨l, rfl⟩ := ht.leaf j n hs
      exact ⟨some l, rfl⟩
  parent k j := by
    cases hs : slot t (k + 1) j with
    | none => exact ⟨none, rfl⟩
    | some n =>
      obtain ⟨p, rfl⟩ := ht.parent k j n hs
      exact ⟨some p, rfl⟩

theorem InPlace.without {s : Places} (hs : InPlace s) (removed : List ℕ) :
    InPlace (s.without removed) where
  leaf j := by
    obtain ⟨o, ho⟩ := hs.leaf j
    unfold Places.without
    split_ifs
    · exact ⟨none, rfl⟩
    · exact ⟨o, by cases o <;> simp [ho, Node.without]⟩
  parent k j := by
    obtain ⟨o, ho⟩ := hs.parent k j
    exact ⟨o.map (ParentNode.without removed), by cases o <;> simp [Places.without, ho, Node.without]⟩

theorem subtreeHashAt_throws {s : Places} (hs : InPlace s) (h : Hash) (k j : ℕ) :
    ThrowsOnly IsCodecError (subtreeHashAt s h k j) := by
  have huint : Encodes fun n : ℕ => encodeUint32 n := fun n => encodes_uint 4 n
  have htype : ∀ (α : Type) (name : NodeTypeName), Encodes
      (contramapEncoder encodeNodeType fun _ : α => name) :=
    fun α name => ((encodes_uint 1).comp _).comp _
  have hleaf : Encodes encodeLeafNodeHashInput := by
    refine encodes_fields ?_
    simp only [List.forall_mem_cons]
    exact ⟨htype _ _, huint.comp _, encodes_leafNode.optional.comp _, by simp⟩
  have hparent : Encodes encodeParentNodeHashInput := by
    refine encodes_fields ?_
    simp only [List.forall_mem_cons]
    exact ⟨htype _ _, encodes_parentNode.optional.comp _, encodes_varLenData.comp _,
      encodes_varLenData.comp _, by simp⟩
  induction k generalizing j with
  | zero =>
    obtain ⟨o, ho⟩ := hs.leaf j
    rw [subtreeHashAt, leafInPlace_eq_ok.mpr ho, ok_bind]
    exact (hleaf _).bind fun _ => throwsOnly_pure _
  | succ k ih =>
    obtain ⟨o, ho⟩ := hs.parent k j
    rw [subtreeHashAt, parentInPlace_eq_ok.mpr ho, ok_bind]
    exact (ih _).bind fun _ => (ih _).bind fun _ => (hparent _).bind fun _ => throwsOnly_pure _

theorem bindParent_throws (h : Hash) (p : ParentNode) (x : Bytes) :
    ThrowsOnly IsCodecError (bindParent h p x) := by
  have hinput : Encodes encodeParentHashInput := by
    refine encodes_fields ?_
    simp only [List.forall_mem_cons]
    exact ⟨encodes_varLenData.comp _, encodes_varLenData.comp _, encodes_varLenData.comp _, by simp⟩
  exact (hinput _).bind fun _ => throwsOnly_pure _

section
variable {d : ℕ} {t : RatchetTree}

/-- A parent survives the removal of whatever leaves, so there is a tree left to cut. -/
theorem Sound.removeLeaves (hs : Sound d t) {k j : ℕ} {p : ParentNode}
    (hp : slot t k j = some (.parent p)) (removed : List ℕ) :
    ∃ t', removeLeaves t removed = .ok t' ∧ slot t' k j ≠ none := by
  have hk : k ≠ 0 := by
    rintro rfl
    obtain ⟨l, hl⟩ := hs.typed.leaf j _ hp
    cases hl
  have hkept : Places.without removed (slot t) k j ≠ none := by
    simp [Places.without, hk, hp]
  have hlen : ∀ f : Option Node × ℕ → Option Node, (t.zipIdx.map f).length ≤ size 29 := by
    intro f
    rw [List.length_map, List.length_zipIdx, hs.length]
    exact size_mono hs.depth
  obtain ⟨t', ht'⟩ := condenseRatchetTreeAfterRemove_returns
    (fun _ _ h => slot_eq_none_of_le ((hlen _).trans h)) (by rw [slot_removeLeavesNode]; exact hkept)
  exact ⟨t', ht', by rw [slot_removeLeaves ht']; exact hkept⟩

theorem Sound.originalTree (hs : Sound d t) {k j : ℕ} {p : ParentNode}
    (hp : slot t k j = some (.parent p)) : ∃ t₀, originalTree t p.unmergedLeaves = .ok t₀ := by
  unfold WebcryptoMls.originalTree
  split_ifs
  · exact ⟨t, rfl⟩
  · obtain ⟨t₀, ht₀, -⟩ := hs.removeLeaves hp p.unmergedLeaves
    exact ⟨t₀, ht₀⟩

theorem Sound.satisfiesResolutionCriterion (hs : Sound d t) (x : ℤ) {m q c : ℕ} {p : ParentNode}
    (hp : slot t (m + 1) q = some (.parent p)) (hc : c / 2 = q) :
    ∃ b, satisfiesResolutionCriterion t x (coord (m + 1) q) (coord m c) = .ok b := by
  have hlt : index m c < size 30 :=
    lt_of_lt_of_le (child_lt_size (hs.length ▸ index_lt_of_slot hp) (by omega))
      (size_mono (by have := hs.depth; omega))
  simp only [WebcryptoMls.satisfiesResolutionCriterion, nodeAt_coord, hp, resolution_coord hlt,
    ok_bind, leafRange_coord le_rfl hlt]
  split_ifs <;> exact ⟨_, rfl⟩

/-! ## The climb from a leaf -/

/-- Each round goes to a non-blank node of a higher level, or ends the climb. -/
theorem Sound.coverageLoop (hs : Sound d t) (h : Hash) {k j : ℕ} {n : Node}
    (hn : slot t k j = some n) (fuel : ℕ) (hf : d < k + fuel) (coverage : Coverage) :
    ThrowsOnly IsCodecError (coverageLoop t h (coord d 0) fuel (coord k j) coverage) := by
  have hd : d ≤ 30 := by have := hs.depth; omega
  induction fuel generalizing k j n coverage with
  | zero =>
    have := (InOrder.index_lt_size.mp (hs.length ▸ index_lt_of_slot hn)).1
    omega
  | succ fuel ih =>
    obtain ⟨hk, hj⟩ := InOrder.index_lt_size.mp (hs.length ▸ index_lt_of_slot hn)
    rw [WebcryptoMls.coverageLoop]
    split_ifs with hroot
    · exact throwsOnly_pure _
    have hlt : k < d := by
      refine lt_of_le_of_ne hk fun heq => hroot ?_
      subst heq
      rw [coord_inj]
      simpa using hj
    rw [nodeAt_coord, hn]
    rcases hs.typed.nextAbove_or_blank k j with ⟨m, p, hnext⟩ | hblank
    · have hidx : index (m + 1) (j / 2 ^ (m + 1 - k)) < size d :=
        hs.length ▸ index_lt_of_slot hnext.node
      have hkm := hnext.lt
      have hq : j / 2 ^ (m - k) / 2 = j / 2 ^ (m + 1 - k) := by
        rw [← InOrder.div_two_pow_succ, show m - k + 1 = m + 1 - k by omega]
      obtain ⟨t₀, ht₀⟩ := hs.originalTree hnext.node
      dsimp only
      rw [calculateParentHash_original hs.length hd hj hnext ht₀, bind_assoc]
      refine (subtreeHashAt_throws (hs.typed.inPlace.without _) h _ _).bind fun x => ?_
      rw [bind_assoc]
      refine (bindParent_throws h p x).bind fun parentHash => ?_
      rw [pure_bind]
      dsimp only
      rw [childTowards_coord hd (by omega) hidx, ok_bind]
      obtain ⟨b, hb⟩ := hs.satisfiesResolutionCriterion (coord k j) hnext.node hq
      split
      · exact throwsOnly_pure _
      · split_ifs
        · rw [hb, ok_bind]
          split_ifs
          · exact ih hnext.node (by omega) _
          · exact throwsOnly_pure _
        · exact throwsOnly_pure _
    · obtain ⟨m, rfl⟩ : ∃ m, d = m + 1 := ⟨d - 1, by omega⟩
      have htop : j / 2 ^ (m + 1 - k) = 0 := Nat.div_eq_of_lt hj
      have hside := childTowards_coord (d := m + 1) (k := k) (j := j) (m := m) hd (by omega)
        (by rw [htop]; exact InOrder.index_lt_size.mpr ⟨le_rfl, by simp⟩)
      have hcrit : ∀ c, WebcryptoMls.satisfiesResolutionCriterion t (coord k j) (coord (m + 1) 0) c =
          .ok false := by
        intro c
        rw [← htop, WebcryptoMls.satisfiesResolutionCriterion, nodeAt_coord, hblank (m + 1) hlt]
        rfl
      rw [htop] at hside
      simp only [calculateParentHash_blank h hs.length hd hlt hj hblank, ok_bind, hside, hcrit,
        Bool.false_eq_true, if_false]
      split
      · exact throwsOnly_pure _
      · split_ifs <;> exact throwsOnly_pure _

/-- Every climb ends, no removal empties the tree and no index is out of range. -/
theorem Sound.verifyParentHashes (hs : Sound d t) (h : Hash) :
    ThrowsOnly IsCodecError (verifyParentHashes t h) := by
  have hd : d ≤ 30 := by have := hs.depth; omega
  have hcoverage : ThrowsOnly IsCodecError (parentHashCoverage t h) := by
    unfold parentHashCoverage
    rw [hs.length, leafWidth_size, root_two_pow hd]
    refine ThrowsOnly.foldlM (fun x hx coverage => ?_) _
    obtain ⟨node, m⟩ := x
    dsimp only
    split_ifs with hskip
    · exact throwsOnly_pure _
    · obtain ⟨k, j, rfl⟩ := InOrder.exists_index m
      rw [List.mem_zipIdx_iff_getElem?] at hx
      cases node with
      | none => simp at hskip
      | some n =>
        have hn : slot t k j = some n := by
          rw [slot_eq_getElem?]
          simp [hx]
        have := hs.coverageLoop h hn 33 (by omega) coverage
        rwa [coord] at this
  simp only [WebcryptoMls.verifyParentHashes]
  split_ifs
  · exact throwsOnly_pure _
  · exact hcoverage.bind fun _ => throwsOnly_pure _

theorem Sound.treeHashRoot (hs : Sound d t) (h : Hash) :
    ThrowsOnly IsCodecError (treeHashRoot t h) := by
  rw [treeHashRoot_coord hs.length (by have := hs.depth; omega)]
  exact subtreeHashAt_throws hs.typed.inPlace h d 0

/-! ## Unmerged leaves -/

theorem Sound.validateUnmergedLeaves (hs : Sound d t) :
    ThrowsOnly IsCodecError (validateUnmergedLeaves t) := by
  refine ThrowsOnly.firstError fun x hx => ?_
  obtain ⟨node, m⟩ := x
  cases node with
  | none => exact throwsOnly_pure _
  | some n =>
    cases n with
    | leaf l => exact throwsOnly_pure _
    | parent p =>
      obtain ⟨k, j, rfl⟩ := InOrder.exists_index m
      rw [List.mem_zipIdx_iff_getElem?] at hx
      have hp : slot t k j = some (.parent p) := by
        rw [slot_eq_getElem?]
        simp [hx]
      refine ThrowsOnly.firstError fun u hu => ?_
      unfold validateUnmergedLeaf
      rw [hs.length, leafWidth_size, leafToNodeIndex_eq,
        directPath_leaf (by have := hs.depth; omega) (hs.inRange hp u hu), ok_bind]
      dsimp only
      split_ifs <;> exact throwsOnly_pure _

/-! ## Leaves -/

/-- The ciphersuite is one of the library's. -/
def KnownSuite (groupContext : GroupContext) : Prop := ∀ n, groupContext.cipherSuite ≠ .other n

theorem KnownSuite.suite {gc : GroupContext} (h : KnownSuite gc) :
    ∃ suite, getCiphersuiteFromName gc.cipherSuite = .ok suite := by
  cases hsuite : gc.cipherSuite with
  | other n => exact absurd hsuite (h n)
  | _ => exact ⟨_, rfl⟩

/-- The service answers whatever it is asked. -/
def Answers (authService : AuthenticationService) : Prop :=
  ∀ credential key prior, ∃ b, authService.validateCredential credential key prior = .ok b

theorem requiredCapabilitiesError_throws (leaf : LeafNode) (extensions : List Extension) :
    ThrowsOnly IsCodecError (requiredCapabilitiesError leaf extensions) := by
  have hconfined : Confined IsCodecError decodeRequiredCapabilities :=
    (confined_varLenType (confined_uint 2)).bind fun _ =>
    (confined_varLenType (confined_uint 2)).bind fun _ =>
    (confined_varLenType (confined_map (confined_uint 2) _)).bind fun _ => .pure _
  unfold requiredCapabilitiesError
  split
  · exact throwsOnly_pure _
  · refine ThrowsOnly.bind (fun e he => hconfined.fails (Nat.zero_le _) he) fun caps => ?_
    cases caps with
    | none => exact throwsOnly_pure _
    | some caps => dsimp only; split_ifs <;> exact throwsOnly_pure _

theorem validateHpkePublicKey_throws {gc : GroupContext} (hsuite : KnownSuite gc) (key : Bytes)
    (hpke : Hpke) (what : String) :
    ThrowsOnly IsCodecError (validateHpkePublicKey key gc hpke what) := by
  obtain ⟨suite, hs⟩ := hsuite.suite
  unfold validateHpkePublicKey
  rw [hs, ok_bind]
  split_ifs
  · exact throwsOnly_pure _
  · split <;> exact throwsOnly_pure _

theorem validateLeafNodeCommon_throws {gc : GroupContext} (hsuite : KnownSuite gc)
    {authService : AuthenticationService} (hauth : Answers authService) (leaf : LeafNode)
    (tree : RatchetTree) (hpke : Hpke) (leaves : LeafSummary) (leafIndex : Option ℕ)
    (prior : Option Credential) :
    ThrowsOnly IsCodecError
      (validateLeafNodeCommon leaf gc tree authService hpke leaves leafIndex prior) := by
  refine (validateHpkePublicKey_throws hsuite _ _ _).bind fun keyError => ?_
  cases keyError with
  | some e => exact throwsOnly_pure _
  | none =>
    obtain ⟨b, hb⟩ := hauth leaf.credential leaf.signaturePublicKey prior
    dsimp only
    rw [hb, ok_bind]
    split_ifs
    · exact throwsOnly_pure _
    · refine (requiredCapabilitiesError_throws _ _).bind fun capabilitiesError => ?_
      cases capabilitiesError <;> exact throwsOnly_pure _

theorem validateLeafAt_throws {gc : GroupContext} (hsuite : KnownSuite gc)
    {authService : AuthenticationService} (hauth : Answers authService) (config : LifetimeConfig)
    (cs : CiphersuiteImpl) (leaves : LeafSummary) (currentTime : ℤ) {x : Option Node × ℕ}
    (hx : soundAt x = true) :
    ThrowsOnly IsCodecError (validateLeafAt t gc config authService cs leaves currentTime x) := by
  have hcommon := @validateLeafNodeCommon_throws gc hsuite authService hauth
  have hsmall : ∀ leaf, ThrowsOnly IsCodecError (hasSmallOrderSignatureKey leaf gc) := by
    intro leaf
    obtain ⟨suite, hs⟩ := hsuite.suite
    rw [hasSmallOrderSignatureKey, hs, ok_bind]
    exact throwsOnly_pure _
  obtain ⟨node, m⟩ := x
  cases node with
  | none => exact throwsOnly_pure _
  | some n =>
    cases n with
    | parent p => exact throwsOnly_pure _
    | leaf l =>
      have hm : isLeaf m = true := hx
      rw [validateLeafAt, nodeToLeafIndex, hm]
      simp only [Bool.not_true, Bool.false_eq_true, if_false, pure_bind]
      split
      · refine (hsmall l).bind fun smallOrder => ?_
        split_ifs
        · exact throwsOnly_pure _
        refine ThrowsOnly.bind ?_ fun signatureValid => ?_
        · exact (encodes_leafNodeTBS _ _).bind fun _ => verifyWithLabel_throws _ _ _ _ _
        split_ifs
        · exact throwsOnly_pure _
        split
        · exact throwsOnly_pure _
        · exact hcommon _ _ _ _ _ _
      · refine (hsmall l).bind fun smallOrder => ?_
        split_ifs
        · exact throwsOnly_pure _
        refine ThrowsOnly.bind ?_ fun signatureValid => ?_
        · exact (encodes_leafNodeTBS _ _).bind fun _ => verifyWithLabel_throws _ _ _ _ _
        split_ifs
        · exact throwsOnly_pure _
        · exact hcommon _ _ _ _ _ _

/-! ## Decoded trees -/

/-- A widened tree has the nodes it was made of. -/
theorem extendRatchetTree_spec {t t' : RatchetTree} (h : extendRatchetTree t = .ok t') :
    ∃ d ≤ 29, t'.length = size d ∧ ∀ k j, slot t' k j = slot t k j := by
  simp only [extendRatchetTree] at h
  split_ifs at h
  · cases h
  · obtain ⟨s, hs, h⟩ := bind_eq_ok.mp h
    obtain ⟨d, hd, rfl, hle, -⟩ :=
      nextFullBinaryTreeSizeLoop_spec (d := 0) rfl (fun e he => absurd he (by omega)) hs
    obtain rfl := Except.ok.inj h
    refine ⟨d, hd, ?_, fun k j => slot_append_replicate_none ..⟩
    rw [List.length_append, List.length_replicate]
    omega

theorem decodeRatchetTree_eq_ok {b : Bytes} {offset len : ℕ}
    (h : decodeRatchetTree b offset = .ok (some (t, len))) :
    ∃ nodes, extendRatchetTree nodes = .ok t ∧ unmergedLeavesInRange t = true := by
  unfold decodeRatchetTree at h
  split at h
  · cases h
  · cases h
  · rename_i nodes len' _
    obtain ⟨tree, htree, h⟩ := bind_eq_ok.mp h
    unfold treeOfNodes at htree
    split_ifs at htree
    · cases htree
      cases h
    · obtain ⟨t', ht', htree⟩ := bind_eq_ok.mp htree
      split_ifs at htree with hrange
      · cases htree
        cases h
        exact ⟨nodes, ht', hrange⟩
      · cases htree
        cases h

/-- A decoded tree whose nodes stand in their places is sound. -/
theorem sound_of_decoded {b : Bytes} {offset len : ℕ}
    (h : decodeRatchetTree b offset = .ok (some (t, len)))
    (hsound : treeIsStructurallySound t = true) : ∃ d, Sound d t := by
  obtain ⟨nodes, hextend, hrange⟩ := decodeRatchetTree_eq_ok h
  obtain ⟨d, hd, hlen, -⟩ := extendRatchetTree_spec hextend
  have hat : ∀ k j n, slot t k j = some n → (some n, index k j) ∈ t.zipIdx ∧ some n ∈ t := by
    intro k j n hn
    rw [slot_eq_getElem?, Option.join_eq_some_iff] at hn
    exact ⟨List.mem_zipIdx_iff_getElem?.mpr hn, List.mem_of_getElem? hn⟩
  have hplace : ∀ k j n, slot t k j = some n → soundAt (some n, index k j) = true := fun k j n hn =>
    List.all_eq_true.mp hsound _ (hat k j n hn).1
  refine ⟨d, hlen, hd, ⟨fun i n hn => ?_, fun k j n hn => ?_⟩, fun {k j p} hp u hu => ?_⟩
  · cases n with
    | leaf l => exact ⟨l, rfl⟩
    | parent p =>
      have := hplace 0 i _ hn
      rw [soundAt, ← coord, isLeaf_coord] at this
      simp at this
  · cases n with
    | parent p => exact ⟨p, rfl⟩
    | leaf l =>
      have := hplace (k + 1) j _ hn
      rw [soundAt, ← coord, isLeaf_coord] at this
      simp at this
  · have := List.all_eq_true.mp hrange _ (hat k j _ hp).2
    rw [hlen, leafWidth_size, nodeInRange, List.all_eq_true] at this
    have hlt := of_decide_eq_true (this u hu)
    exact_mod_cast hlt

end

/-! ## Validation -/

/-- A decoded tree, of whatever size, is accepted, refused with an error value, or refused
with a `CodecError`. With the nodes in their places no climb of the parent hashes throws
anything else, and no removal empties the tree. -/
theorem validateRatchetTree_refuses {b : Bytes} {offset len : ℕ} {tree : RatchetTree}
    (hdecoded : decodeRatchetTree b offset = .ok (some (tree, len))) {groupContext : GroupContext}
    (hsuite : KnownSuite groupContext) (config : LifetimeConfig)
    {authService : AuthenticationService} (hauth : Answers authService) (treeHash : Bytes)
    (cs : CiphersuiteImpl) (currentTime : ℤ) :
    ((∃ result, validateRatchetTree tree groupContext config authService treeHash cs currentTime =
        .ok result) ∨
      ∃ e, validateRatchetTree tree groupContext config authService treeHash cs currentTime =
        .error e ∧ (e.name = .ValidationError ∨ e.name = .CodecError)) ∧
    (treeIsStructurallySound tree = true →
      ThrowsOnly IsCodecError (verifyParentHashes tree cs.hash) ∧
      ∀ k j p, slot tree k j = some (.parent p) →
        ∃ original, removeLeaves tree p.unmergedLeaves = .ok original ∧ slot original k j ≠ none) := by
  refine ⟨?_, fun hsound => ?_⟩
  · have hthrows : ThrowsOnly IsCodecError
        (validateRatchetTree tree groupContext config authService treeHash cs currentTime) := by
      unfold validateRatchetTree
      split_ifs with hsound
      · exact throwsOnly_pure _
      rw [Bool.not_eq_true', Bool.not_eq_false] at hsound
      obtain ⟨d, hs⟩ := sound_of_decoded hdecoded hsound
      refine (hs.verifyParentHashes cs.hash).bind fun parentHashesVerified => ?_
      split_ifs
      · exact throwsOnly_pure _
      refine (hs.treeHashRoot cs.hash).bind fun computedTreeHash => ?_
      split_ifs
      · exact throwsOnly_pure _
      refine hs.validateUnmergedLeaves.bind fun unmergedError => ?_
      cases unmergedError with
      | some e => exact throwsOnly_pure _
      | none =>
        dsimp only
        split_ifs
        · exact throwsOnly_pure _
        · exact ThrowsOnly.firstError fun x hx => validateLeafAt_throws hsuite hauth config cs _
            currentTime (List.all_eq_true.mp hsound x hx)
    cases hresult : validateRatchetTree tree groupContext config authService treeHash cs
        currentTime with
    | ok result => exact .inl ⟨result, rfl⟩
    | error e => exact .inr ⟨e, rfl, .inr (hthrows e hresult)⟩
  · obtain ⟨d, hs⟩ := sound_of_decoded hdecoded hsound
    exact ⟨hs.verifyParentHashes cs.hash, fun k j p hp => hs.removeLeaves hp p.unmergedLeaves⟩

/-- A tree of one blank-fielded leaf as it is sent. -/
def singleLeafBytes : Bytes :=
  [31, 1, 1, 0, 0, 0, 1, 0, 0, 0, 0, 0, 0, 1, 0, 0, 0, 0, 0, 0, 0, 0, 0, 0, 0, 0, 0, 0, 0, 0, 0, 0]

def singleLeafHash : Bytes :=
  [1, 1, 0, 0, 0, 0, 1, 0, 0, 0, 1, 0, 0, 0, 0, 0, 0, 1, 0, 0, 0, 0, 0, 0, 0, 0, 0, 0, 0, 0, 0, 0, 0,
    0, 0, 0]

theorem decodeRatchetTree_single :
    decodeRatchetTree singleLeafBytes 0 = .ok (some ([some (.leaf default)], 32)) := by
  rfl

/-- Two such leaves under a parent to which the right one is unmerged. -/
def twoLeaves : RatchetTree :=
  [some (.leaf default), some (.parent ⟨[], [], [1]⟩), some (.leaf default)]

def twoLeavesBytes : Bytes :=
  [64, 71] ++ singleLeafBytes.tail ++ [1, 2, 0, 0, 4, 0, 0, 0, 1] ++ singleLeafBytes.tail

theorem decodeRatchetTree_two : decodeRatchetTree twoLeavesBytes 0 = .ok (some (twoLeaves, 73)) := by
  decide +kernel

/-- No child commits to the parent, which is an error value; the climb of the parent
hashes takes the unmerged leaf out. -/
theorem validateRatchetTree_refuses_two :
    ((∃ result, validateRatchetTree twoLeaves plainGroupContext defaultLifetimeConfig
        unsafeAcceptAllAuthenticationService [] plainSuite 0 = .ok result) ∨
      ∃ e, validateRatchetTree twoLeaves plainGroupContext defaultLifetimeConfig
        unsafeAcceptAllAuthenticationService [] plainSuite 0 = .error e ∧
        (e.name = .ValidationError ∨ e.name = .CodecError)) ∧
    ThrowsOnly IsCodecError (verifyParentHashes twoLeaves plainSuite.hash) ∧
    ∃ original, removeLeaves twoLeaves [1] = .ok original ∧ slot original 1 0 ≠ none := by
  have hsuite : KnownSuite plainGroupContext := by simp [KnownSuite, plainGroupContext]
  have hauth : Answers unsafeAcceptAllAuthenticationService := fun _ _ _ => ⟨true, rfl⟩
  obtain ⟨hrefused, hclimbs⟩ := validateRatchetTree_refuses decodeRatchetTree_two hsuite
    defaultLifetimeConfig hauth [] plainSuite 0
  obtain ⟨hhashes, hremoved⟩ := hclimbs rfl
  exact ⟨hrefused, hhashes, hremoved 1 0 _ rfl⟩

/-- A ciphersuite the table does not have is read before any leaf is refused. -/
theorem validateRatchetTree_unknown_suite :
    singleLeafBytes.length ≤ MAX_MLS_MESSAGE_SIZE ∧
    decodeRatchetTree singleLeafBytes 0 = .ok (some ([some (.leaf default)], 32)) ∧
    validateRatchetTree [some (.leaf default)] { plainGroupContext with cipherSuite := .other 0 }
      defaultLifetimeConfig unsafeAcceptAllAuthenticationService singleLeafHash plainSuite 0 =
      .error (typeError "Cannot read properties of undefined") := by
  refine ⟨by decide, decodeRatchetTree_single, rfl⟩

end WebcryptoMls
