import WebcryptoMls.HashCoordinates
import WebcryptoMls.Chains

/-!
# What a hash binds

Where no two hashed inputs collide, a subtree hash determines every parent hash
that is stored in the subtree, and a parent hash determines the subtree hash it
was computed from. A parent hash uses the values stored in that subtree; being
computed from them, it is younger than they are.
-/
namespace WebcryptoMls
open InOrder (index size Below)
open PrefixCode

theorem leafInPlace_eq_ok {n : Option Node} {o : Option LeafNode} :
    leafInPlace n = .ok o ↔ n = o.map Node.leaf := by
  rcases n with _ | p | l <;> cases o <;>
    simp [leafInPlace, pure, Except.pure, throw, throwThe, MonadExceptOf.throw]

theorem parentInPlace_eq_ok {n : Option Node} {o : Option ParentNode} :
    parentInPlace n = .ok o ↔ n = o.map Node.parent := by
  rcases n with _ | p | l <;> cases o <;>
    simp [parentInPlace, pure, Except.pure, throw, throwThe, MonadExceptOf.throw]

/-- The octets that are hashed for a node. -/
def subtreeInputAt (s : Places) (h : Hash) : ℕ → ℕ → Except MlsError Bytes
  | 0, j => do
    let leafNode ← leafInPlace (s 0 j)
    encodeLeafNodeHashInput { leafIndex := j, leafNode := leafNode }
  | k + 1, j => do
    let parentNode ← parentInPlace (s (k + 1) j)
    let leftHash ← subtreeHashAt s h k (2 * j)
    let rightHash ← subtreeHashAt s h k (2 * j + 1)
    encodeParentNodeHashInput
      { parentNode := parentNode, leftHash := leftHash, rightHash := rightHash }

theorem subtreeHashAt_eq_input (s : Places) (h : Hash) (k j : ℕ) :
    subtreeHashAt s h k j = (do
      let input ← subtreeInputAt s h k j
      pure (h.digest input)) := by
  cases k <;> simp only [subtreeHashAt, subtreeInputAt, bind_assoc]

theorem subtreeHashAt_eq_ok {s : Places} {h : Hash} {k j : ℕ} {x : Bytes} :
    subtreeHashAt s h k j = .ok x ↔ ∃ y, subtreeInputAt s h k j = .ok y ∧ h.digest y = x := by
  rw [subtreeHashAt_eq_input, bind_eq_ok]
  simp [pure, Except.pure]

theorem subtreeInputAt_zero_eq_ok {s : Places} {h : Hash} {j : ℕ} {y : Bytes} :
    subtreeInputAt s h 0 j = .ok y ↔ ∃ o, s 0 j = o.map Node.leaf ∧
      encodeLeafNodeHashInput { leafIndex := j, leafNode := o } = .ok y := by
  simp only [subtreeInputAt, bind_eq_ok, leafInPlace_eq_ok]

theorem subtreeInputAt_succ_eq_ok {s : Places} {h : Hash} {k j : ℕ} {y : Bytes} :
    subtreeInputAt s h (k + 1) j = .ok y ↔ ∃ o l r, s (k + 1) j = o.map Node.parent ∧
      subtreeHashAt s h k (2 * j) = .ok l ∧ subtreeHashAt s h k (2 * j + 1) = .ok r ∧
      encodeParentNodeHashInput { parentNode := o, leftHash := l, rightHash := r } = .ok y := by
  simp only [subtreeInputAt, bind_eq_ok, parentInPlace_eq_ok]
  constructor
  · rintro ⟨o, ho, l, hl, r, hr, hy⟩
    exact ⟨o, l, r, ho, hl, hr, hy⟩
  · rintro ⟨o, l, r, ho, hl, hr, hy⟩
    exact ⟨o, ho, l, hl, r, hr, hy⟩

/-! ## What the hashed inputs determine -/

theorem prefixFree_encodeNodeType : PrefixFree encodeNodeType := (prefixFree_encodeUint 1).comp _

theorem encodeNodeType_eq_ok (t : NodeTypeName) :
    encodeNodeType t = .ok [UInt8.ofNat (nodeTypes t).toNat] := by
  cases t <;> decide

theorem prefixFree_leafHashInputParts : ∀ e ∈ [
    contramapEncoder encodeNodeType fun _ => .leaf,
    contramapEncoder (fun n : ℕ => encodeUint32 n) LeafNodeHashInput.leafIndex,
    contramapEncoder (encodeOptional encodeLeafNode) LeafNodeHashInput.leafNode],
    PrefixFree e := by
  intro e he
  simp only [List.mem_cons, List.not_mem_nil, or_false] at he
  rcases he with rfl | rfl | rfl
  · exact prefixFree_encodeNodeType.comp _
  · exact (prefixFree_encodeUint 4).comp _
  · exact (prefixFree_encodeOptional prefixFree_encodeLeafNode).comp _

theorem encodeOptional_parentHash {o o' : Option LeafNode} {x : Bytes}
    (h : encodeOptional encodeLeafNode o = .ok x) (h' : encodeOptional encodeLeafNode o' = .ok x) :
    o.bind (·.info.parentHash) = o'.bind (·.info.parentHash) := by
  have hsome : ∀ {l : LeafNode} {o : Option LeafNode}, encodeOptional encodeLeafNode (some l) = .ok x →
      encodeOptional encodeLeafNode o = .ok x → l.info.parentHash = o.bind (·.info.parentHash) := by
    intro l o hl ho
    obtain ⟨l', rfl, hll⟩ := encodeOptional_some_inj hl ho
    obtain ⟨u, hu, -⟩ := bind_eq_ok.mp hl
    exact encodeLeafNode_parentHash hu (hll.symm.trans hu)
  cases o with
  | some l => exact hsome h h'
  | none =>
    cases o' with
    | some l => exact (hsome h' h).symm
    | none => rfl

theorem encodeLeafNodeHashInput_parentHash {a b : LeafNodeHashInput} {x : Bytes}
    (ha : encodeLeafNodeHashInput a = .ok x) (hb : encodeLeafNodeHashInput b = .ok x) :
    a.leafNode.bind (·.info.parentHash) = b.leafNode.bind (·.info.parentHash) := by
  have hparts := (concat_parts (r := []) (s := []) prefixFree_leafHashInputParts ha hb rfl).2
  obtain ⟨u, hu⟩ := concat_part_ok ha
    (e := contramapEncoder (encodeOptional encodeLeafNode) LeafNodeHashInput.leafNode) (by simp)
  have hv := hparts _ (show contramapEncoder (encodeOptional encodeLeafNode)
    LeafNodeHashInput.leafNode ∈ _ by simp)
  exact encodeOptional_parentHash hu (hv.symm.trans hu)

theorem prefixFree_parentNodeHashInputParts : ∀ e ∈ [
    contramapEncoder encodeNodeType fun _ => .parent,
    contramapEncoder (encodeOptional encodeParentNode) ParentNodeHashInput.parentNode,
    contramapEncoder encodeVarLenData ParentNodeHashInput.leftHash,
    contramapEncoder encodeVarLenData ParentNodeHashInput.rightHash], PrefixFree e := by
  intro e he
  simp only [List.mem_cons, List.not_mem_nil, or_false] at he
  rcases he with rfl | rfl | rfl | rfl
  · exact prefixFree_encodeNodeType.comp _
  · exact (prefixFree_encodeOptional prefixFree_encodeParentNode).comp _
  · exact prefixFree_encodeVarLenData.comp _
  · exact prefixFree_encodeVarLenData.comp _

theorem encodeOptional_parentNode_inj {o o' : Option ParentNode} {x : Bytes}
    (h : encodeOptional encodeParentNode o = .ok x)
    (h' : encodeOptional encodeParentNode o' = .ok x) : o = o' := by
  have hsome : ∀ {p : ParentNode} {o : Option ParentNode},
      encodeOptional encodeParentNode (some p) = .ok x →
      encodeOptional encodeParentNode o = .ok x → some p = o := by
    intro p o hp ho
    obtain ⟨p', rfl, hpp⟩ := encodeOptional_some_inj hp ho
    obtain ⟨u, hu, -⟩ := bind_eq_ok.mp hp
    rw [encodeParentNode_inj hu (hpp.symm.trans hu)]
  cases o with
  | some p => exact hsome h h'
  | none =>
    cases o' with
    | some p => exact (hsome h' h).symm
    | none => rfl

theorem encodeParentNodeHashInput_inj {a b : ParentNodeHashInput} {x : Bytes}
    (ha : encodeParentNodeHashInput a = .ok x) (hb : encodeParentNodeHashInput b = .ok x) :
    a = b := by
  have hparts := (concat_parts (r := []) (s := []) prefixFree_parentNodeHashInputParts ha hb rfl).2
  obtain ⟨u, hu⟩ := concat_part_ok ha
    (e := contramapEncoder (encodeOptional encodeParentNode) ParentNodeHashInput.parentNode)
    (by simp)
  obtain ⟨l, hl⟩ := concat_part_ok ha
    (e := contramapEncoder encodeVarLenData ParentNodeHashInput.leftHash) (by simp)
  obtain ⟨r, hr⟩ := concat_part_ok ha
    (e := contramapEncoder encodeVarLenData ParentNodeHashInput.rightHash) (by simp)
  have hu' := (hparts _ (by simp)).symm.trans hu
  have hl' := (hparts _ (by simp)).symm.trans hl
  have hr' := (hparts _ (by simp)).symm.trans hr
  cases a
  cases b
  simp only [ParentNodeHashInput.mk.injEq]
  exact ⟨encodeOptional_parentNode_inj hu hu', encodeVarLenData_inj hl hl',
    encodeVarLenData_inj hr hr'⟩

/-- The input of a leaf is never the input of a parent. -/
theorem encodeLeafNodeHashInput_ne {a : LeafNodeHashInput} {b : ParentNodeHashInput} {x : Bytes}
    (ha : encodeLeafNodeHashInput a = .ok x) : encodeParentNodeHashInput b ≠ .ok x := by
  intro hb
  obtain ⟨u, v, hu, -, hx⟩ := concat_cons_eq_ok.mp ha
  obtain ⟨u', v', hu', -, hx'⟩ := concat_cons_eq_ok.mp hb
  have h1 : encodeNodeType .leaf = .ok u := hu
  have h2 : encodeNodeType .parent = .ok u' := hu'
  rw [encodeNodeType_eq_ok, Except.ok.injEq] at h1 h2
  subst h1 h2
  rw [hx, List.cons_append, List.cons_append, List.cons.injEq] at hx'
  exact absurd hx'.1 (by decide)

theorem prefixFree_parentHashInputParts : ∀ e ∈ [
    contramapEncoder encodeVarLenData ParentHashInput.encryptionKey,
    contramapEncoder encodeVarLenData ParentHashInput.parentHash,
    contramapEncoder encodeVarLenData ParentHashInput.originalSiblingTreeHash], PrefixFree e := by
  intro e he
  simp only [List.mem_cons, List.not_mem_nil, or_false] at he
  rcases he with rfl | rfl | rfl <;> exact prefixFree_encodeVarLenData.comp _

theorem encodeParentHashInput_sibling {a b : ParentHashInput} {x : Bytes}
    (ha : encodeParentHashInput a = .ok x) (hb : encodeParentHashInput b = .ok x) :
    a.originalSiblingTreeHash = b.originalSiblingTreeHash := by
  have hparts := (concat_parts (r := []) (s := []) prefixFree_parentHashInputParts ha hb rfl).2
  obtain ⟨u, hu⟩ := concat_part_ok ha
    (e := contramapEncoder encodeVarLenData ParentHashInput.originalSiblingTreeHash) (by simp)
  exact encodeVarLenData_inj hu ((hparts _ (by simp)).symm.trans hu)

/-! ## Stored parent hashes -/

/-- A node of the subtree stores the parent hash. -/
def Occurs (s : Places) (m c : ℕ) (v : Bytes) : Prop :=
  ∃ k j n, Below k j m c ∧ s k j = some n ∧ getParentHash n = some v

theorem Occurs.mono {s : Places} {k j m c : ℕ} {v : Bytes} (h : Occurs s k j v)
    (hb : Below k j m c) : Occurs s m c v := by
  obtain ⟨k', j', n, hb', hn, hv⟩ := h
  exact ⟨k', j', n, hb'.trans hb, hn, hv⟩

theorem occurs_succ {s : Places} {m c : ℕ} {v : Bytes} : Occurs s (m + 1) c v ↔
    (∃ n, s (m + 1) c = some n ∧ getParentHash n = some v) ∨ Occurs s m (2 * c) v ∨
      Occurs s m (2 * c + 1) v := by
  constructor
  · rintro ⟨k, j, n, hb, hn, hv⟩
    rcases InOrder.below_succ.mp hb with ⟨rfl, rfl⟩ | hb | hb
    · exact .inl ⟨n, hn, hv⟩
    · exact .inr (.inl ⟨k, j, n, hb, hn, hv⟩)
    · exact .inr (.inr ⟨k, j, n, hb, hn, hv⟩)
  · rintro (⟨n, hn, hv⟩ | h | h)
    · exact ⟨_, _, n, InOrder.below_refl _ _, hn, hv⟩
    · exact h.mono (InOrder.below_left m c)
    · exact h.mono (InOrder.below_right m c)

/-- Everything hashed in the subtree is in `S`. -/
def InputsIn (S : Set Bytes) (s : Places) (h : Hash) (m c : ℕ) : Prop :=
  ∀ k j y, Below k j m c → subtreeInputAt s h k j = .ok y → y ∈ S

theorem InputsIn.mono {S : Set Bytes} {s : Places} {h : Hash} {k j m c : ℕ}
    (hS : InputsIn S s h m c) (hb : Below k j m c) : InputsIn S s h k j :=
  fun k' j' y hb' hy => hS k' j' y (hb'.trans hb) hy

section
variable {h : Hash} {S : Set Bytes} (hinj : Set.InjOn h.digest S)
include hinj

/-- Subtrees with one hash store the same parent hashes. -/
theorem occurs_of_hash_eq {s s' : Places} {m m' c c' : ℕ} {x v : Bytes}
    (hx : subtreeHashAt s h m c = .ok x) (hx' : subtreeHashAt s' h m' c' = .ok x)
    (hS : InputsIn S s h m c) (hS' : InputsIn S s' h m' c') (hv : Occurs s m c v) :
    Occurs s' m' c' v := by
  induction m generalizing c m' c' x with
  | zero =>
    obtain ⟨y, hy, hyx⟩ := subtreeHashAt_eq_ok.mp hx
    obtain ⟨y', hy', hyx'⟩ := subtreeHashAt_eq_ok.mp hx'
    obtain rfl : y = y' := hinj (hS 0 c y (InOrder.below_refl _ _) hy)
      (hS' m' c' y' (InOrder.below_refl _ _) hy') (hyx.trans hyx'.symm)
    obtain ⟨o, ho, henc⟩ := subtreeInputAt_zero_eq_ok.mp hy
    cases m' with
    | succ m' =>
      obtain ⟨o', l, r, -, -, -, henc'⟩ := subtreeInputAt_succ_eq_ok.mp hy'
      exact absurd henc' (encodeLeafNodeHashInput_ne henc)
    | zero =>
      obtain ⟨o', ho', henc'⟩ := subtreeInputAt_zero_eq_ok.mp hy'
      have hsame := encodeLeafNodeHashInput_parentHash henc henc'
      obtain ⟨k, j, n, hb, hn, hnv⟩ := hv
      obtain ⟨rfl, rfl⟩ := InOrder.below_zero.mp hb
      rw [ho] at hn
      obtain ⟨l, rfl, rfl⟩ := Option.map_eq_some_iff.mp hn
      have hl : o'.bind (·.info.parentHash) = some v := hsame ▸ hnv
      obtain ⟨l', rfl, hl'⟩ := Option.bind_eq_some_iff.mp hl
      exact ⟨0, c', .leaf l', InOrder.below_refl _ _, ho', hl'⟩
  | succ m ih =>
    obtain ⟨y, hy, hyx⟩ := subtreeHashAt_eq_ok.mp hx
    obtain ⟨y', hy', hyx'⟩ := subtreeHashAt_eq_ok.mp hx'
    obtain rfl : y = y' := hinj (hS _ c y (InOrder.below_refl _ _) hy)
      (hS' m' c' y' (InOrder.below_refl _ _) hy') (hyx.trans hyx'.symm)
    obtain ⟨o, l, r, ho, hl, hr, henc⟩ := subtreeInputAt_succ_eq_ok.mp hy
    cases m' with
    | zero =>
      obtain ⟨o', -, henc'⟩ := subtreeInputAt_zero_eq_ok.mp hy'
      exact absurd henc (encodeLeafNodeHashInput_ne henc')
    | succ m' =>
      obtain ⟨o', l', r', ho', hl', hr', henc'⟩ := subtreeInputAt_succ_eq_ok.mp hy'
      have heq := encodeParentNodeHashInput_inj henc henc'
      rw [ParentNodeHashInput.mk.injEq] at heq
      obtain ⟨rfl, rfl, rfl⟩ := heq
      rcases occurs_succ.mp hv with ⟨n, hn, hnv⟩ | hv | hv
      · exact occurs_succ.mpr (.inl ⟨n, by rw [ho', ← ho, hn], hnv⟩)
      · exact occurs_succ.mpr (.inr (.inl (ih hl hl' (hS.mono (InOrder.below_left m c))
          (hS'.mono (InOrder.below_left m' c')) hv)))
      · exact occurs_succ.mpr (.inr (.inr (ih hr hr' (hS.mono (InOrder.below_right m c))
          (hS'.mono (InOrder.below_right m' c')) hv)))

omit hinj in
/-- The parent hash `v` was computed from the hash of a subtree that stores `w`. -/
def Uses (h : Hash) (S : Set Bytes) (v w : Bytes) : Prop :=
  w ≠ [] ∧ ∃ (input : ParentHashInput) (y : Bytes) (s : Places) (m c : ℕ),
    encodeParentHashInput input = .ok y ∧ y ∈ S ∧ h.digest y = v ∧
    subtreeHashAt s h m c = .ok input.originalSiblingTreeHash ∧ InputsIn S s h m c ∧ Occurs s m c w

/-- What a parent hash uses is stored in any subtree it can be computed from. -/
theorem Uses.occurs {v w : Bytes} (hu : Uses h S v w) {input : ParentHashInput} {y : Bytes}
    {s : Places} {m c : ℕ} (hy : encodeParentHashInput input = .ok y) (hyS : y ∈ S)
    (hyv : h.digest y = v) (hx : subtreeHashAt s h m c = .ok input.originalSiblingTreeHash)
    (hS : InputsIn S s h m c) : Occurs s m c w := by
  obtain ⟨-, input', y', s', m', c', hy', hyS', hyv', hx', hS', hw⟩ := hu
  obtain rfl : y = y' := hinj hyS hyS' (hyv.trans hyv'.symm)
  rw [encodeParentHashInput_sibling hy hy'] at hx
  exact occurs_of_hash_eq hinj hx' hx hS' hS hw

end

end WebcryptoMls
