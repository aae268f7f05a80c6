import WebcryptoMls.LeafValidation

/-!
# A leaf against all others, in one pass

`summarizeLeaves` reads the tree once, and `countOthers` takes the replaced leaf
off a count instead of scanning the other leaves. The replaced leaf is counted
once for the place it stands in, so what remains of a count are the leaves in
other places, whatever values they share with it.
-/
namespace WebcryptoMls

/-- The leaf a slot of the tree holds. -/
def leafOf : Option Node → Option LeafNode
  | some (.leaf leaf) => some leaf
  | _ => none

@[simp] theorem leafOf_eq_some {slot : Option Node} {leaf : LeafNode} :
    leafOf slot = some leaf ↔ slot = some (.leaf leaf) := by
  rcases slot with _ | _ | _ <;> simp [leafOf]

@[simp] theorem leafOf_none : leafOf none = none := rfl

@[simp] theorem leafOf_parent (parent : ParentNode) : leafOf (some (.parent parent)) = none := rfl

@[simp] theorem leafOf_leaf (leaf : LeafNode) : leafOf (some (.leaf leaf)) = some leaf := rfl

/-- The parent a slot of the tree holds. -/
def parentOf : Option Node → Option ParentNode
  | some (.parent parent) => some parent
  | _ => none

@[simp] theorem parentOf_eq_some {slot : Option Node} {parent : ParentNode} :
    parentOf slot = some parent ↔ slot = some (.parent parent) := by
  rcases slot with _ | _ | _ <;> simp [parentOf]

@[simp] theorem parentOf_none : parentOf none = none := rfl

@[simp] theorem parentOf_parent (parent : ParentNode) :
    parentOf (some (.parent parent)) = some parent := rfl

@[simp] theorem parentOf_leaf (leaf : LeafNode) : parentOf (some (.leaf leaf)) = none := rfl

/-! ## What the pass collects -/

section
variable (tree : RatchetTree) (summary : LeafSummary)

theorem credentialTypes_foldl : (tree.foldl summarizeNode summary).credentialTypes =
    summary.credentialTypes ++ (tree.filterMap leafOf).map fun l => l.credential.credentialType := by
  induction tree generalizing summary with
  | nil => simp
  | cons slot tree ih =>
    rw [List.foldl_cons, ih]
    rcases slot with _ | _ | _ <;> simp [summarizeNode, List.filterMap_cons]

theorem leafHpkeKeys_foldl : (tree.foldl summarizeNode summary).leafHpkeKeys =
    summary.leafHpkeKeys ++ (tree.filterMap leafOf).map LeafNode.hpkePublicKey := by
  induction tree generalizing summary with
  | nil => simp
  | cons slot tree ih =>
    rw [List.foldl_cons, ih]
    rcases slot with _ | _ | _ <;> simp [summarizeNode, List.filterMap_cons]

theorem leafSignatureKeys_foldl : (tree.foldl summarizeNode summary).leafSignatureKeys =
    summary.leafSignatureKeys ++ (tree.filterMap leafOf).map LeafNode.signaturePublicKey := by
  induction tree generalizing summary with
  | nil => simp
  | cons slot tree ih =>
    rw [List.foldl_cons, ih]
    rcases slot with _ | _ | _ <;> simp [summarizeNode, List.filterMap_cons]

theorem parentHpkeKeys_foldl : (tree.foldl summarizeNode summary).parentHpkeKeys =
    summary.parentHpkeKeys ++ (tree.filterMap parentOf).map ParentNode.hpkePublicKey := by
  induction tree generalizing summary with
  | nil => simp
  | cons slot tree ih =>
    rw [List.foldl_cons, ih]
    rcases slot with _ | _ | _ <;> simp [summarizeNode, List.filterMap_cons]

/-- A type is missing from those all leaves list when some leaf does not list it. -/
theorem supportedByAll_foldl (type : CredentialTypeName) :
    (tree.foldl summarizeNode summary).supportedByAll.any (fun supported =>
      !supported.contains type) = true ↔
    summary.supportedByAll.any (fun supported => !supported.contains type) = true ∨
      ∃ leaf ∈ tree.filterMap leafOf, type ∉ leaf.capabilities.credentials := by
  induction tree generalizing summary with
  | nil => simp
  | cons slot tree ih =>
    rw [List.foldl_cons, ih]
    rcases slot with _ | parent | leaf
    · simp [summarizeNode, List.filterMap_cons]
    · simp [summarizeNode, List.filterMap_cons]
    · rw [List.filterMap_cons_some (leafOf_leaf leaf)]
      cases hs : summary.supportedByAll with
      | none => simp [summarizeNode, hs]
      | some supported =>
        simp only [summarizeNode, hs, Option.any_some, List.contains_eq_mem, List.mem_filter,
          Bool.not_eq_true', decide_eq_false_iff_not, decide_eq_true_iff, List.exists_mem_cons_iff]
        tauto

end

/-! ## The other leaves -/

/-- Taking one place off a count of a list. -/
theorem countP_set_blank {α : Type} {q : α → Bool} {blank : α} (hblank : q blank = false)
    (l : List α) (p : ℕ) :
    ((l.set p blank).countP q : ℤ) = l.countP q - if l[p]?.any q then 1 else 0 := by
  by_cases hp : p < l.length
  · have hpos : q l[p] = true → 0 < l.countP q := fun h =>
      List.countP_pos_iff.mpr ⟨l[p], List.getElem_mem hp, h⟩
    rw [List.countP_set hp, hblank, List.getElem?_eq_getElem hp, Option.any_some]
    by_cases hq : q l[p] = true
    · have := hpos hq
      simp only [hq, if_true]
      push_cast [this]
      simp
    · simp [hq]
  · rw [List.set_eq_of_length_le (by omega), List.getElem?_eq_none (by omega)]
    simp

/-- The slot `n` holds the leaf. -/
def HoldsLeaf (tree : RatchetTree) (n : ℕ) (leaf : LeafNode) : Prop :=
  tree[n]? = some (some (.leaf leaf))

theorem mem_filterMap_leafOf {tree : RatchetTree} {leaf : LeafNode} :
    leaf ∈ tree.filterMap leafOf ↔ ∃ n, HoldsLeaf tree n leaf := by
  simp only [HoldsLeaf]
  rw [← List.mem_iff_getElem?, List.mem_filterMap]
  simp

/-- The slot `n` holds the parent node. -/
def HoldsParent (tree : RatchetTree) (n : ℕ) (p : ParentNode) : Prop :=
  tree[n]? = some (some (.parent p))

/-- The slot `n` is the one of the leaf that is replaced. -/
def isReplaced (leafIndex : Option ℕ) (n : ℕ) : Prop := leafIndex.map (2 * ·) = some n

theorem exists_other_iff {q : Option Node → Bool} (hblank : q none = false) (tree : RatchetTree)
    (leafIndex : Option ℕ) :
    (0 < (tree.countP q : ℤ) - if (leafIndex.bind fun i => tree[2 * i]?).any q then 1 else 0) ↔
      ∃ n slot, ¬ isReplaced leafIndex n ∧ tree[n]? = some slot ∧ q slot = true := by
  cases leafIndex with
  | none =>
    have hpos : 0 < tree.countP q ↔ ∃ slot ∈ tree, q slot = true := List.countP_pos_iff
    simp only [isReplaced, Option.map_none, Option.bind_none, Option.any_none, Bool.false_eq_true,
      if_false, sub_zero, Nat.cast_pos, hpos, List.mem_iff_getElem?]
    constructor
    · rintro ⟨slot, ⟨n, hn⟩, hq⟩
      exact ⟨n, slot, by simp, hn, hq⟩
    · rintro ⟨n, slot, -, hn, hq⟩
      exact ⟨slot, ⟨n, hn⟩, hq⟩
  | some i =>
    rw [Option.bind_some, ← countP_set_blank hblank, Nat.cast_pos, List.countP_pos_iff]
    simp only [isReplaced, Option.map_some, Option.some.injEq, List.mem_iff_getElem?,
      List.getElem?_set]
    constructor
    · rintro ⟨slot, ⟨n, hn⟩, hq⟩
      split_ifs at hn with hni hlt
      · obtain rfl := Option.some.inj hn
        rw [hblank] at hq
        cases hq
      · exact ⟨n, slot, hni, hn, hq⟩
    · rintro ⟨n, slot, hni, hn, hq⟩
      exact ⟨slot, ⟨n, by rw [if_neg hni, hn]⟩, hq⟩

theorem leafAt_eq (tree : RatchetTree) (i : ℕ) :
    leafAt tree i = tree[2 * i]?.bind leafOf := by
  have hnode : nodeAt tree (leafToNodeIndex i) = tree[2 * i]?.join := by
    rw [leafToNodeIndex_eq, nodeAt_coord, slot_eq_getElem?, InOrder.index_zero]
  rw [leafAt, hnode]
  cases tree[2 * i]? with
  | none => rfl
  | some slot => rcases slot with _ | _ | _ <;> rfl

/-- What is left of a count when the replaced leaf is taken off: the leaves in other
places that carry the key. -/
theorem countOthers_pos {α : Type} [DecidableEq α] (tree : RatchetTree) (leafIndex : Option ℕ)
    (key : α) (keyOf : LeafNode → α) :
    0 < countOthers ((tree.filterMap leafOf).map keyOf) key (leafIndex.bind (leafAt tree)) keyOf ↔
      ∃ n leaf, ¬ isReplaced leafIndex n ∧ HoldsLeaf tree n leaf ∧ keyOf leaf = key := by
  set q : Option Node → Bool := fun slot => (leafOf slot).any fun leaf => keyOf leaf = key with hq
  have hcount : ((tree.filterMap leafOf).map keyOf).count key = tree.countP q := by
    rw [List.count, List.countP_map, List.countP_filterMap]
    congr 1
    funext slot
    rcases slot with _ | _ | leaf <;> simp [hq, beq_eq_decide]
  have hown : (leafIndex.bind (leafAt tree)).map keyOf = some key ↔
      (leafIndex.bind fun i => tree[2 * i]?).any q = true := by
    cases leafIndex with
    | none => simp
    | some i =>
      rw [Option.bind_some, Option.bind_some, leafAt_eq]
      cases tree[2 * i]? with
      | none => simp
      | some slot => rcases slot with _ | _ | leaf <;> simp [hq]
  rw [countOthers, hcount]
  simp only [hown]
  rw [exists_other_iff (by simp [hq])]
  constructor
  · rintro ⟨n, slot, hn, hslot, hslotq⟩
    rcases slot with _ | _ | leaf
    · cases hslotq
    · cases hslotq
    · exact ⟨n, leaf, hn, hslot, by simpa [hq] using hslotq⟩
  · rintro ⟨n, leaf, hn, hslot, hkey⟩
    exact ⟨n, _, hn, hslot, by simp [hq, hkey]⟩

/-! ## The pairwise definition -/

/-- The conditions on a leaf and a tree, by a scan of the tree. -/
structure AcceptedByScan (tree : RatchetTree) (leafIndex : Option ℕ) (leafNode : LeafNode) :
    Prop where
  /-- Every leaf, the replaced one included, lists the candidate's credential type. -/
  supported : ∀ n leaf, HoldsLeaf tree n leaf →
    leafNode.credential.credentialType ∈ leaf.capabilities.credentials
  inUse : ∀ n leaf, ¬ isReplaced leafIndex n → HoldsLeaf tree n leaf →
    leaf.credential.credentialType ∈ leafNode.capabilities.credentials
  hpkeKey : ∀ n leaf, ¬ isReplaced leafIndex n → HoldsLeaf tree n leaf →
    leaf.hpkePublicKey ≠ leafNode.hpkePublicKey
  signatureKey : ∀ n leaf, ¬ isReplaced leafIndex n → HoldsLeaf tree n leaf →
    leaf.signaturePublicKey ≠ leafNode.signaturePublicKey
  parentKey : ∀ n p, HoldsParent tree n p → p.hpkePublicKey ≠ leafNode.hpkePublicKey

section
variable (tree : RatchetTree) (leafIndex : Option ℕ) (leafNode : LeafNode)

theorem supportedByAll_any :
    (summarizeLeaves tree).supportedByAll.any (fun supported =>
      !supported.contains leafNode.credential.credentialType) = true ↔
    ∃ n leaf, HoldsLeaf tree n leaf ∧
      leafNode.credential.credentialType ∉ leaf.capabilities.credentials := by
  rw [summarizeLeaves, supportedByAll_foldl]
  simp only [Option.any_none, Bool.false_eq_true, false_or, mem_filterMap_leafOf]
  constructor
  · rintro ⟨leaf, ⟨n, hn⟩, hnot⟩
    exact ⟨n, leaf, hn, hnot⟩
  · rintro ⟨n, leaf, hn, hnot⟩
    exact ⟨leaf, ⟨n, hn⟩, hnot⟩

theorem credentialTypes_any :
    (summarizeLeaves tree).credentialTypes.any (fun type =>
      !leafNode.capabilities.credentials.contains type &&
        countOthers (summarizeLeaves tree).credentialTypes type (leafIndex.bind (leafAt tree))
          (fun l => l.credential.credentialType) > 0) = true ↔
    ∃ n leaf, ¬ isReplaced leafIndex n ∧ HoldsLeaf tree n leaf ∧
      leaf.credential.credentialType ∉ leafNode.capabilities.credentials := by
  rw [summarizeLeaves, credentialTypes_foldl, List.nil_append]
  simp only [List.any_eq_true, Bool.and_eq_true, decide_eq_true_iff, gt_iff_lt, countOthers_pos,
    List.contains_eq_mem, Bool.not_eq_true', decide_eq_false_iff_not, List.mem_map,
    mem_filterMap_leafOf]
  constructor
  · rintro ⟨type, -, hnot, n, leaf, hn, hleaf, rfl⟩
    exact ⟨n, leaf, hn, hleaf, hnot⟩
  · rintro ⟨n, leaf, hn, hleaf, hnot⟩
    exact ⟨_, ⟨leaf, ⟨n, hleaf⟩, rfl⟩, hnot, n, leaf, hn, hleaf, rfl⟩

theorem leafHpkeKeys_others :
    countOthers (summarizeLeaves tree).leafHpkeKeys leafNode.hpkePublicKey
      (leafIndex.bind (leafAt tree)) LeafNode.hpkePublicKey > 0 ↔
    ∃ n leaf, ¬ isReplaced leafIndex n ∧ HoldsLeaf tree n leaf ∧
      leaf.hpkePublicKey = leafNode.hpkePublicKey := by
  rw [summarizeLeaves, leafHpkeKeys_foldl, List.nil_append, gt_iff_lt, countOthers_pos]

theorem leafSignatureKeys_others :
    countOthers (summarizeLeaves tree).leafSignatureKeys leafNode.signaturePublicKey
      (leafIndex.bind (leafAt tree)) LeafNode.signaturePublicKey > 0 ↔
    ∃ n leaf, ¬ isReplaced leafIndex n ∧ HoldsLeaf tree n leaf ∧
      leaf.signaturePublicKey = leafNode.signaturePublicKey := by
  rw [summarizeLeaves, leafSignatureKeys_foldl, List.nil_append, gt_iff_lt, countOthers_pos]

theorem parentHpkeKeys_contains :
    (summarizeLeaves tree).parentHpkeKeys.contains leafNode.hpkePublicKey = true ↔
    ∃ n p, HoldsParent tree n p ∧ p.hpkePublicKey = leafNode.hpkePublicKey := by
  rw [summarizeLeaves, parentHpkeKeys_foldl, List.nil_append]
  simp only [List.contains_eq_mem, decide_eq_true_iff, List.mem_map, List.mem_filterMap,
    parentOf_eq_some, exists_eq_right]
  simp only [List.mem_iff_getElem?, HoldsParent]
  constructor
  · rintro ⟨p, ⟨n, hn⟩, hkey⟩
    exact ⟨n, p, hn, hkey⟩
  · rintro ⟨n, p, hn, hkey⟩
    exact ⟨p, ⟨n, hn⟩, hkey⟩

theorem validateLeafNodeAmong_eq_none :
    validateLeafNodeAmong leafNode (summarizeLeaves tree) (leafIndex.bind (leafAt tree)) = none ↔
      extensionsSupportedByCapabilities leafNode.extensions leafNode.capabilities = true ∧
        AcceptedByScan tree leafIndex leafNode := by
  rw [validateLeafNodeAmong]
  classical
  simp only [supportedByAll_any, credentialTypes_any, leafHpkeKeys_others, leafSignatureKeys_others,
    parentHpkeKeys_contains]
  constructor
  · intro h
    split_ifs at h with h1 h2 h3 h4 h5
    push Not at h1 h2 h4 h5
    exact ⟨by simpa using h3, h1, h2, h4.1, h4.2, h5⟩
  · rintro ⟨hext, hs⟩
    rw [if_neg, if_neg, if_neg, if_neg, if_neg]
    · rintro ⟨n, p, hn, hkey⟩
      exact hs.parentKey n p hn hkey
    · rintro (⟨n, leaf, hn, hleaf, hkey⟩ | ⟨n, leaf, hn, hleaf, hkey⟩)
      · exact hs.hpkeKey n leaf hn hleaf hkey
      · exact hs.signatureKey n leaf hn hleaf hkey
    · simp [hext]
    · rintro ⟨n, leaf, hn, hleaf, hnot⟩
      exact hnot (hs.inUse n leaf hn hleaf)
    · rintro ⟨n, leaf, hleaf, hnot⟩
      exact hnot (hs.supported n leaf hleaf)

/-- The pass and the scan accept the same leaves, for every tree and every index. -/
theorem validateLeafNodeCommon_accepts_iff (groupContext : GroupContext)
    (authService : AuthenticationService) (hpke : Hpke) (priorCredential : Option Credential) :
    validateLeafNodeCommon leafNode groupContext tree authService hpke (summarizeLeaves tree)
      leafIndex priorCredential = .ok none ↔
    validateHpkePublicKey leafNode.hpkePublicKey groupContext hpke "LeafNode encryption key" =
        .ok none ∧
      authService.validateCredential leafNode.credential leafNode.signaturePublicKey
        priorCredential = .ok true ∧
      requiredCapabilitiesError leafNode groupContext.extensions = .ok none ∧
      extensionsSupportedByCapabilities leafNode.extensions leafNode.capabilities = true ∧
      AcceptedByScan tree leafIndex leafNode := by
  rw [← validateLeafNodeAmong_eq_none, validateLeafNodeCommon]
  constructor
  · intro h
    obtain ⟨keyError, hkey, h⟩ := bind_eq_ok.mp h
    cases keyError with
    | some e => cases h
    | none =>
      obtain ⟨credentialValid, hvalid, h⟩ := bind_eq_ok.mp h
      cases credentialValid with
      | false => cases h
      | true =>
        obtain ⟨capabilitiesError, hcap, h⟩ := bind_eq_ok.mp h
        cases capabilitiesError with
        | some e => cases h
        | none => exact ⟨hkey, hvalid, hcap, Except.ok.inj h⟩
  · rintro ⟨hkey, hvalid, hcap, hamong⟩
    rw [hkey, ok_bind]
    dsimp only
    rw [hvalid, ok_bind]
    simp only [Bool.not_true, Bool.false_eq_true, if_false, hcap, ok_bind, hamong]
    rfl

end

end WebcryptoMls
