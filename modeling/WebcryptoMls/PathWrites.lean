import WebcryptoMls.FilteredPath
import WebcryptoMls.UpdatePath

/-!
# What an update path writes

`createUpdatePath` and `applyUpdatePath` write the same kind of tree: the leaf,
a parent node without unmerged leaves at each level of the filtered direct path,
and nothing else. Each parent hash was computed on an array that already held
everything above the node it belongs to.
-/
namespace WebcryptoMls
open InOrder (index size Below)

/-- The node of a leaf's direct path above level `m` of its copath. -/
def pathNode (i m : ℕ) : ℤ := coord (m + 1) (i / 2 ^ (m + 1))

theorem pathNode_inj {i m m' : ℕ} (h : pathNode i m = pathNode i m') : m = m' := by
  have := (coord_inj.mp h).1
  omega

theorem pathNode_lt {d i m : ℕ} (hm : m < d) (hi : i < 2 ^ d) :
    index (m + 1) (i / 2 ^ (m + 1)) < size d :=
  InOrder.ancestor_lt_size hm hi

/-- `mid` is `t` but for the ancestors of leaf `i` up to level `k`. -/
structure AgreeAbove (mid t : RatchetTree) (i k : ℕ) : Prop where
  length : mid.length = t.length
  slot : ∀ k' j, k < k' ∨ i / 2 ^ k' ≠ j → slot mid k' j = slot t k' j

theorem AgreeAbove.refl (t : RatchetTree) (i k : ℕ) : AgreeAbove t t i k := ⟨rfl, fun _ _ _ => rfl⟩

theorem AgreeAbove.trans {a b c : RatchetTree} {i k k' : ℕ} (h : AgreeAbove a b i k)
    (h' : AgreeAbove b c i k') (hk : k' ≤ k) : AgreeAbove a c i k where
  length := h.length.trans h'.length
  slot m j hm := (h.slot m j hm).trans (h'.slot m j (hm.imp (lt_of_le_of_lt hk) id))

theorem AgreeAbove.symm {a b : RatchetTree} {i k : ℕ} (h : AgreeAbove a b i k) :
    AgreeAbove b a i k :=
  ⟨h.length.symm, fun m j hm => (h.slot m j hm).symm⟩

/-- A write at an ancestor of leaf `i`. -/
theorem agreeAbove_setNode {t : RatchetTree} {i k : ℕ} (h : index k (i / 2 ^ k) < t.length)
    (v : Option Node) : AgreeAbove (setNode t (coord k (i / 2 ^ k)) v) t i k where
  length := length_setNode _ _ _
  slot k' j hk' := by
    rw [slot_setNode h, if_neg]
    rintro ⟨rfl, rfl⟩
    rcases hk' with h | h
    · exact absurd h (lt_irrefl _)
    · exact h rfl

/-- The node at a level holds a parent hash that was computed on an array in
which everything above the level is already what it is in `t`. -/
def HashedAt (h : Hash) (t : RatchetTree) (i k : ℕ) (parentHash : Bytes) : Prop :=
  ∃ mid r, AgreeAbove mid t i k ∧ calculateParentHash mid (coord k (i / 2 ^ k)) h = .ok (parentHash, r)

/-- `t'` is `t` with an update path of leaf `i` written into it. -/
structure PathWritten (h : Hash) (t t' : RatchetTree) (d i : ℕ) (l : LeafNodeCommit) : Prop where
  depth : d ≤ 30
  leaf_lt : i < 2 ^ d
  length : t'.length = size d
  leaf : slot t' 0 i = some (.leaf l.leaf)
  leafHash : HashedAt h t' i 0 l.parentHash
  node : ∀ m ∈ filteredLevels t d i, ∃ p, slot t' (m + 1) (i / 2 ^ (m + 1)) = some (.parent p) ∧
    p.unmergedLeaves = [] ∧ HashedAt h t' i (m + 1) p.parentHash
  other : ∀ k j, ¬ (k = 0 ∧ j = i) →
    (∀ m ∈ filteredLevels t d i, ¬ (k = m + 1 ∧ j = i / 2 ^ (m + 1))) → slot t' k j = slot t k j

/-! ## Writing parent nodes from the root down -/

/-- One round of a loop that writes parent nodes along a path of leaf `i`. -/
def WritesParent (h : Hash) (Q : RatchetTree → ℕ → ParentNode → Prop) (i : ℕ)
    (c : RatchetTree) (m : ℕ) (c' : RatchetTree) : Prop :=
  ∃ p r, c' = setNode c (pathNode i m) (some (.parent p)) ∧ Q c m p ∧
    calculateParentHash c (pathNode i m) h = .ok (p.parentHash, r)

theorem WritesParent.agree {h : Hash} {Q : RatchetTree → ℕ → ParentNode → Prop} {i m d : ℕ}
    {c c' : RatchetTree} (hw : WritesParent h Q i c m c') (hlen : c.length = size d)
    (hm : m < d) (hi : i < 2 ^ d) : AgreeAbove c' c i (m + 1) := by
  obtain ⟨p, r, rfl, -, -⟩ := hw
  exact agreeAbove_setNode (by rw [hlen]; exact pathNode_lt hm hi) _

/-- The rounds of such a loop over falling levels. -/
inductive WritesParents (h : Hash) (Q : RatchetTree → ℕ → ParentNode → Prop) (i : ℕ) :
    List ℕ → RatchetTree → RatchetTree → Prop
  | nil (c : RatchetTree) : WritesParents h Q i [] c c
  | cons {m : ℕ} {ms : List ℕ} {c c₁ c' : RatchetTree} (round : WritesParent h Q i c m c₁)
    (rest : WritesParents h Q i ms c₁ c') : WritesParents h Q i (m :: ms) c c'

theorem WritesParents.length {h : Hash} {Q : RatchetTree → ℕ → ParentNode → Prop} {i : ℕ}
    {ms : List ℕ} {c c' : RatchetTree} (hw : WritesParents h Q i ms c c') :
    c'.length = c.length := by
  induction hw with
  | nil => rfl
  | cons round _ ih =>
    obtain ⟨p, r, rfl, -, -⟩ := round
    rw [ih, length_setNode]

/-- Places off the list of levels keep their node. -/
theorem WritesParents.other {h : Hash} {Q : RatchetTree → ℕ → ParentNode → Prop} {i d : ℕ}
    {ms : List ℕ} {c c' : RatchetTree} (hw : WritesParents h Q i ms c c')
    (hlen : c.length = size d) (hi : i < 2 ^ d) (hms : ∀ m ∈ ms, m < d) {k j : ℕ}
    (hkj : ∀ m ∈ ms, ¬ (k = m + 1 ∧ j = i / 2 ^ (m + 1))) : slot c' k j = slot c k j := by
  induction hw with
  | nil => rfl
  | @cons m ms c c₁ c' round rest ih =>
    obtain ⟨p, r, rfl, -, -⟩ := round
    have hm := hms m (List.mem_cons_self ..)
    rw [ih (by simp [hlen]) (fun m hm => hms m (List.mem_cons_of_mem _ hm))
      (fun m hm => hkj m (List.mem_cons_of_mem _ hm)), pathNode,
      slot_setNode (by rw [hlen]; exact pathNode_lt hm hi), if_neg (hkj m (List.mem_cons_self ..))]

/-- Each level of a falling list holds the parent its round wrote, and the array
of that round agrees with the last one above it. -/
theorem WritesParents.node {h : Hash} {Q : RatchetTree → ℕ → ParentNode → Prop} {i d : ℕ}
    {ms : List ℕ} {c c' : RatchetTree} (hw : WritesParents h Q i ms c c')
    (hlen : c.length = size d) (hi : i < 2 ^ d) (hms : ∀ m ∈ ms, m < d)
    (hsorted : ms.Pairwise (· > ·)) {m : ℕ} (hm : m ∈ ms) :
    ∃ p mid, slot c' (m + 1) (i / 2 ^ (m + 1)) = some (.parent p) ∧ Q mid m p ∧
      AgreeAbove mid c' i (m + 1) ∧ mid.length = size d ∧
      (∀ m' ≤ m, slot mid (m' + 1) (i / 2 ^ (m' + 1)) = slot c (m' + 1) (i / 2 ^ (m' + 1))) ∧
      ∃ r, calculateParentHash mid (pathNode i m) h = .ok (p.parentHash, r) := by
  induction hw generalizing m with
  | nil => simp at hm
  | @cons m₀ ms c c₁ c' round rest ih =>
    have hm₀ := hms m₀ (List.mem_cons_self ..)
    have hagree := round.agree hlen hm₀ hi
    obtain ⟨hfall, hsorted'⟩ := List.pairwise_cons.mp hsorted
    have hlen₁ : c₁.length = size d := hagree.length.trans hlen
    have hms' := fun m hm => hms m (List.mem_cons_of_mem _ hm)
    rcases List.mem_cons.mp hm with rfl | hm
    · obtain ⟨p, r, rfl, hQ, hcalc⟩ := round
      refine ⟨p, c, ?_, hQ, ?_, hlen, fun _ _ => rfl, r, hcalc⟩
      · rw [rest.other hlen₁ hi hms' fun m' hm' heq => by have := hfall m' hm'; omega, pathNode,
          slot_setNode (by rw [hlen]; exact pathNode_lt hm₀ hi), if_pos ⟨rfl, rfl⟩]
      · -- the later rounds write lower levels of the same path only
        refine ⟨(rest.length.trans hagree.length).symm, fun k' j hk' => ?_⟩
        rw [rest.other hlen₁ hi hms', hagree.slot k' j hk']
        rintro m' hm' ⟨rfl, rfl⟩
        have := hfall m' hm'
        rcases hk' with hk' | hk'
        · omega
        · exact hk' rfl
    · obtain ⟨p, mid, hp, hQ, hmid, hl, hbelow, hcalc⟩ := ih hlen₁ hms' hsorted' hm
      refine ⟨p, mid, hp, hQ, hmid, hl, fun m' hm' => ?_, hcalc⟩
      have hlt := hfall m hm
      rw [hbelow m' hm']
      obtain ⟨p₀, r₀, rfl, -, -⟩ := round
      rw [pathNode, slot_setNode (by rw [hlen]; exact pathNode_lt hm₀ hi), if_neg]
      rintro ⟨heq, -⟩
      omega

/-! ## Applying a received path -/

/-- The key a received path writes at each level. -/
def WritesKey (nodes : ℕ → Option UpdatePathNode) (_ : RatchetTree) (m : ℕ) (p : ParentNode) :
    Prop :=
  ∃ node, nodes m = some node ∧ p.hpkePublicKey = node.hpkePublicKey ∧ p.unmergedLeaves = []

theorem foldlM_writePathNode {h : Hash} {i : ℕ} {nodes : ℕ → Option UpdatePathNode}
    {ps : List (ℕ × UpdatePathNode)} {c c' : RatchetTree}
    (hnodes : ∀ p ∈ ps, nodes p.1 = some p.2)
    (hw : (ps.map fun p => (pathNode i p.1, p.2)).foldlM
      (fun copy (nodeIndex, node) => writePathNode h copy nodeIndex node) c = .ok c') :
    WritesParents h (WritesKey nodes) i (ps.map Prod.fst) c c' := by
  induction ps generalizing c with
  | nil =>
    obtain rfl := Except.ok.inj hw
    exact .nil _
  | cons p ps ih =>
    rw [List.map_cons, List.foldlM_cons] at hw
    obtain ⟨c₁, hc₁, hw⟩ := bind_eq_ok.mp hw
    obtain ⟨⟨ph, r⟩, hcalc, hc₁⟩ := bind_eq_ok.mp hc₁
    refine .cons ⟨_, r, (Except.ok.inj hc₁).symm, ?_, hcalc⟩
      (ih (fun p hp => hnodes p (List.mem_cons_of_mem _ hp)) hw)
    exact ⟨p.2, hnodes p (List.mem_cons_self ..), rfl, rfl⟩

/-- The node of a received path that belongs to a level of the filtered path. -/
def nodeOfLevel (t : RatchetTree) (d i : ℕ) (path : UpdatePath) (m : ℕ) : Option UpdatePathNode :=
  path.nodes[(filteredLevels t d i).idxOf m]?

theorem nodeOfLevel_eq {t : RatchetTree} {d i : ℕ} {path : UpdatePath} {m : ℕ}
    {node : UpdatePathNode} (h : (m, node) ∈ (filteredLevels t d i).zip path.nodes) :
    nodeOfLevel t d i path m = some node := by
  obtain ⟨x, hx, hget⟩ := List.getElem_of_mem h
  rw [List.getElem_zip, Prod.mk.injEq] at hget
  obtain ⟨rfl, rfl⟩ := hget
  have hnodup : (filteredLevels t d i).Nodup := (filteredLevels_sorted t d i).imp Nat.ne_of_lt
  simp only [List.length_zip] at hx
  rw [nodeOfLevel, hnodup.idxOf_getElem x (by omega), List.getElem?_eq_getElem (by omega)]

/-- The nodes a received path writes, root first, by level. -/
def receivedNodes (t : RatchetTree) (d i : ℕ) (path : UpdatePath) : List (ℕ × UpdatePathNode) :=
  ((filteredLevels t d i).zip path.nodes).reverse

/-- The loop of `applyUpdatePath` over those nodes. -/
def writeReceived (h : Hash) (i : ℕ) (nodes : List (ℕ × UpdatePathNode)) (c : RatchetTree) :
    Except MlsError RatchetTree :=
  (nodes.map fun p => (pathNode i p.1, p.2)).foldlM
    (fun copy (nodeIndex, node) => writePathNode h copy nodeIndex node) c

theorem receivedNodes_zip {t : RatchetTree} {d i : ℕ} {path : UpdatePath}
    (hcount : path.nodes.length = (filteredLevels t d i).length) :
    ((filteredLevels t d i).map fun m => coord (m + 1) (i / 2 ^ (m + 1))).reverse.zip
      path.nodes.reverse = (receivedNodes t d i path).map fun p => (pathNode i p.1, p.2) := by
  rw [receivedNodes, List.map_reverse, List.zip_eq_zipWith,
    ← List.reverse_zipWith (by simp [hcount]), ← List.zip_eq_zipWith, List.zip_map_left]
  rfl

section
variable {t : RatchetTree} {d i : ℕ} {path : UpdatePath}

theorem receivedNodes_lt {p : ℕ × UpdatePathNode} (hp : p ∈ receivedNodes t d i path) :
    p.1 < d :=
  (mem_filteredLevels.mp (List.of_mem_zip (List.mem_reverse.mp hp)).1).1

theorem receivedNodes_fst (hcount : path.nodes.length = (filteredLevels t d i).length) :
    (receivedNodes t d i path).map Prod.fst = (filteredLevels t d i).reverse := by
  rw [receivedNodes, List.map_reverse, List.map_fst_zip (by omega)]

theorem filteredLevels_reverse_sorted (t : RatchetTree) (d i : ℕ) :
    (filteredLevels t d i).reverse.Pairwise (· > ·) :=
  List.pairwise_reverse.mpr (filteredLevels_sorted t d i)

end

/-- An accepted path has the right length, its loop ends in the tree returned,
and the leaf carries the parent hash computed there. -/
theorem applyUpdatePath_eq_ok {t t' : RatchetTree} {d i : ℕ} {path : UpdatePath} {h : Hash}
    {isExternal : Bool} (hlen : t.length = size d) (hd : d ≤ 31)
    (happly : applyUpdatePath t i path h isExternal = .ok t') :
    d ≤ 30 ∧ i < 2 ^ d ∧ validateUpdatePathKeys t i path isExternal = .ok () ∧
    path.nodes.length = (filteredLevels t d i).length ∧
    writeReceived h i (receivedNodes t d i path)
      (setNode t (coord 0 i) (some (.leaf path.leafNode.leaf))) = .ok t' ∧
    ∃ r, calculateParentHash t' (coord 0 i) h = .ok (path.leafNode.parentHash, r) := by
  unfold applyUpdatePath at happly
  obtain ⟨⟨⟩, hkeys, happly⟩ := bind_eq_ok.mp happly
  obtain ⟨fdp, hfdp, happly⟩ := bind_eq_ok.mp happly
  obtain ⟨hd30, hi⟩ := filteredDirectPath_eq_ok hlen hd hfdp
  rw [filteredDirectPath_coord hlen hd30 hi, Except.ok.injEq] at hfdp
  subst hfdp
  simp only [List.length_reverse, List.length_map, leafToNodeIndex_eq] at happly
  split_ifs at happly with hnum
  · cases happly
  obtain ⟨copy, hcopy, happly⟩ := bind_eq_ok.mp happly
  obtain ⟨⟨leafHash, r⟩, hcalc, happly⟩ := bind_eq_ok.mp happly
  simp only at happly
  split_ifs at happly with hleaf
  · cases happly
  obtain rfl := Except.ok.inj happly
  have hleafHash : leafHash = path.leafNode.parentHash := by
    simpa [constantTimeEqual_iff] using hleaf
  have hcount : path.nodes.length = (filteredLevels t d i).length := not_not.mp hnum
  refine ⟨hd30, hi, hkeys, hcount, ?_, r, by rw [hcalc, hleafHash]⟩
  rw [writeReceived, ← receivedNodes_zip hcount]
  exact hcopy

/-- An accepted path is written, each node with the key sent for it. -/
theorem applyUpdatePath_spec {t t' : RatchetTree} {d i : ℕ} {path : UpdatePath} {h : Hash}
    {isExternal : Bool} (hlen : t.length = size d) (hd : d ≤ 31)
    (happly : applyUpdatePath t i path h isExternal = .ok t') :
    PathWritten h t t' d i path.leafNode ∧
    ∀ m ∈ filteredLevels t d i, ∃ p node, slot t' (m + 1) (i / 2 ^ (m + 1)) = some (.parent p) ∧
      nodeOfLevel t d i path m = some node ∧ p.hpkePublicKey = node.hpkePublicKey := by
  obtain ⟨hd30, hi, -, hcount, hcopy, r, hcalc⟩ := applyUpdatePath_eq_ok hlen hd happly
  have hlt : ∀ m ∈ (filteredLevels t d i).reverse, m < d := fun m hm =>
    (mem_filteredLevels.mp (List.mem_reverse.mp hm)).1
  have hw : WritesParents h (WritesKey (nodeOfLevel t d i path)) i (filteredLevels t d i).reverse
      (setNode t (coord 0 i) (some (.leaf path.leafNode.leaf))) t' := by
    rw [← receivedNodes_fst hcount]
    exact foldlM_writePathNode (fun p hp => nodeOfLevel_eq (List.mem_reverse.mp hp)) hcopy
  have hleafIndex : index 0 i < t.length := by rw [hlen]; exact InOrder.leaf_lt_size.mpr hi
  have hlen₀ : (setNode t (coord 0 i) (some (.leaf path.leafNode.leaf))).length = size d := by
    rw [length_setNode, hlen]
  have hnode : ∀ m ∈ filteredLevels t d i, ∃ p mid,
      slot t' (m + 1) (i / 2 ^ (m + 1)) = some (.parent p) ∧
      WritesKey (nodeOfLevel t d i path) mid m p ∧ AgreeAbove mid t' i (m + 1) ∧
      ∃ r, calculateParentHash mid (pathNode i m) h = .ok (p.parentHash, r) := by
    intro m hm
    obtain ⟨p, mid, hp, hQ, hmid, -, -, hc⟩ :=
      hw.node hlen₀ hi hlt (filteredLevels_reverse_sorted t d i) (List.mem_reverse.mpr hm)
    exact ⟨p, mid, hp, hQ, hmid, hc⟩
  refine ⟨⟨hd30, hi, hw.length.trans hlen₀, ?_, ?_, ?_, ?_⟩, ?_⟩
  · rw [hw.other hlen₀ hi hlt (fun m _ heq => by omega), slot_setNode hleafIndex, if_pos ⟨rfl, rfl⟩]
  · refine ⟨t', r, .refl _ _ _, ?_⟩
    rw [pow_zero, Nat.div_one]
    exact hcalc
  · intro m hm
    obtain ⟨p, mid, hp, ⟨node, -, -, hun⟩, hmid, r, hc⟩ := hnode m hm
    exact ⟨p, hp, hun, mid, r, hmid, hc⟩
  · intro k j h0 hkj
    rw [hw.other hlen₀ hi hlt (fun m hm => hkj m (List.mem_reverse.mp hm)),
      slot_setNode hleafIndex, if_neg h0]
  · intro m hm
    obtain ⟨p, mid, hp, ⟨node, hn, hk, -⟩, -⟩ := hnode m hm
    exact ⟨p, node, hp, hn, hk⟩

/-! ## Creating a path -/

theorem foldlM_initialTreeUpdateStep {cs : CiphersuiteImpl} {d i : ℕ} {res : ℕ → List ℤ}
    {ms : List ℕ} {t t' : RatchetTree} {ps ps' : List PathSecret} (hlen : t.length = size d)
    (hi : i < 2 ^ d) (hms : ∀ m ∈ ms, m < d)
    (h : (ms.map fun m => ({ nodeIndex := pathNode i m, resolution := res m } : PathNode)).foldlM
      (initialTreeUpdateStep cs) (t, ps) = .ok (t', ps')) :
    t'.length = size d ∧
    (∀ k j, (∀ m ∈ ms, ¬ (k = m + 1 ∧ j = i / 2 ^ (m + 1))) → slot t' k j = slot t k j) ∧
    ∀ m ∈ ms, ∃ key, slot t' (m + 1) (i / 2 ^ (m + 1)) =
      some (.parent { hpkePublicKey := key, parentHash := [], unmergedLeaves := [] }) := by
  induction ms generalizing t ps with
  | nil =>
    obtain ⟨rfl, rfl⟩ := Prod.mk.inj (Except.ok.inj h)
    exact ⟨hlen, fun _ _ _ => rfl, by simp⟩
  | cons m ms ih =>
    rw [List.map_cons, List.foldlM_cons] at h
    obtain ⟨⟨t₁, ps₁⟩, hstep, h⟩ := bind_eq_ok.mp h
    obtain ⟨key, rfl⟩ : ∃ key, t₁ = setNode t (pathNode i m)
        (some (.parent { hpkePublicKey := key, parentHash := [], unmergedLeaves := [] })) := by
      simp only [initialTreeUpdateStep] at hstep
      obtain ⟨_, -, hstep⟩ := bind_eq_ok.mp hstep
      obtain ⟨_, -, hstep⟩ := bind_eq_ok.mp hstep
      obtain ⟨_, -, hstep⟩ := bind_eq_ok.mp hstep
      obtain ⟨_, -, hstep⟩ := bind_eq_ok.mp hstep
      obtain ⟨key, -, hstep⟩ := bind_eq_ok.mp hstep
      exact ⟨key, (Prod.mk.inj (Except.ok.inj hstep)).1.symm⟩
    have hm := hms m (List.mem_cons_self ..)
    have hlt : index (m + 1) (i / 2 ^ (m + 1)) < t.length := by rw [hlen]; exact pathNode_lt hm hi
    obtain ⟨hl, hoff, hon⟩ := ih (by rw [length_setNode, hlen])
      (fun m hm => hms m (List.mem_cons_of_mem _ hm)) h
    refine ⟨hl, fun k j hkj => ?_, fun m' hm' => ?_⟩
    · rw [hoff k j fun m hm => hkj m (List.mem_cons_of_mem _ hm), pathNode, slot_setNode hlt,
        if_neg (hkj m (List.mem_cons_self ..))]
    · by_cases hmem : m' ∈ ms
      · exact hon m' hmem
      · obtain rfl : m' = m := (List.mem_cons.mp hm').resolve_right hmem
        refine ⟨key, ?_⟩
        rw [hoff _ _ fun m hm heq => hmem (by rwa [show m' = m by omega]), pathNode,
          slot_setNode hlt, if_pos ⟨rfl, rfl⟩]

/-- `insertParentHash` keeps the key and the unmerged leaves. -/
def KeepsKey (i : ℕ) (c : RatchetTree) (m : ℕ) (p : ParentNode) : Prop :=
  ∃ p₀, slot c (m + 1) (i / 2 ^ (m + 1)) = some (.parent p₀) ∧
    p.hpkePublicKey = p₀.hpkePublicKey ∧ p.unmergedLeaves = p₀.unmergedLeaves

theorem foldlM_insertParentHash {h : Hash} {i : ℕ} {ms : List ℕ} {c c' : RatchetTree}
    (hw : (ms.map (pathNode i)).foldlM (insertParentHash h) c = .ok c') :
    WritesParents h (KeepsKey i) i ms c c' := by
  induction ms generalizing c with
  | nil =>
    obtain rfl := Except.ok.inj hw
    exact .nil _
  | cons m ms ih =>
    rw [List.map_cons, List.foldlM_cons] at hw
    obtain ⟨c₁, hc₁, hw⟩ := bind_eq_ok.mp hw
    refine .cons ?_ (ih hw)
    obtain ⟨⟨ph, r⟩, hcalc, hc₁⟩ := bind_eq_ok.mp hc₁
    simp only at hc₁
    split at hc₁
    · rename_i p₀ hp₀
      exact ⟨_, r, (Except.ok.inj hc₁).symm, ⟨p₀, hp₀, rfl, rfl⟩, hcalc⟩
    · cases hc₁

/-- A created path is written, with the leaf and the keys it is sent with. -/
theorem createUpdatePath_spec {t : RatchetTree} {d i : ℕ} {gc : GroupContext}
    {cs : CiphersuiteImpl} {key : cs.signature.SignatureSecretKey} {coins : PathCoins}
    {exclude : List ℤ} {patch : ResolvedLeafNodePatch cs.signature} {created : CreatedPath cs}
    (hlen : t.length = size d) (hd : d ≤ 31)
    (h : createUpdatePath t i gc cs key coins exclude patch = .ok created) :
    PathWritten cs.hash t created.tree d i created.updatePath.leafNode ∧
    (∃ l, slot t 0 i = some (.leaf l)) ∧
    treeHashRoot created.tree cs.hash = .ok created.treeHash := by
  unfold createUpdatePath at h
  simp only [leafToNodeIndex_eq, nodeAt_coord] at h
  split at h
  case h_2 => cases h
  case h_1 originalLeafNode horig =>
    obtain ⟨leafNodeSecret, -, h⟩ := bind_eq_ok.mp h
    obtain ⟨⟨leafPrivateKey, leafPublicKey⟩, -, h⟩ := bind_eq_ok.mp h
    obtain ⟨fdp, hfdp, h⟩ := bind_eq_ok.mp h
    obtain ⟨⟨t₁, ps⟩, hinit, h⟩ := bind_eq_ok.mp h
    obtain ⟨t₂, hinsert, h⟩ := bind_eq_ok.mp h
    obtain ⟨⟨leafHash, r⟩, hcalc, h⟩ := bind_eq_ok.mp h
    obtain ⟨hpkePublicKey, -, h⟩ := bind_eq_ok.mp h
    obtain ⟨signed, hsigned, h⟩ := bind_eq_ok.mp h
    obtain ⟨root, hroot, h⟩ := bind_eq_ok.mp h
    obtain ⟨nodes, -, h⟩ := bind_eq_ok.mp h
    obtain rfl := Except.ok.inj h
    obtain ⟨hd30, hi⟩ := filteredDirectPathAndCopathResolution_eq_ok hlen hd hfdp
    rw [filteredDirectPathAndCopathResolution_coord hlen hd30 hi, Except.ok.injEq] at hfdp
    subst hfdp
    set levels := filteredLevels t d i with hlevels
    have hlt : ∀ m ∈ levels, m < d := fun m hm => (mem_filteredLevels.mp hm).1
    have hfall := filteredLevels_reverse_sorted t d i
    rw [List.map_map] at hinit
    obtain ⟨hlen₁, hoff, hon⟩ := foldlM_initialTreeUpdateStep hlen hi hlt hinit
    have hw : WritesParents cs.hash (KeepsKey i) i levels.reverse t₁ t₂ := by
      apply foldlM_insertParentHash
      simp only [insertParentHashes, ← List.map_reverse, List.map_map] at hinsert
      exact hinsert
    have hlt' : ∀ m ∈ levels.reverse, m < d := fun m hm => hlt m (List.mem_reverse.mp hm)
    have hlen₂ := hw.length.trans hlen₁
    have hleafIndex : index 0 (i / 2 ^ 0) < t₂.length := by
      rw [hlen₂, pow_zero, Nat.div_one]
      exact InOrder.leaf_lt_size.mpr hi
    have hagree := agreeAbove_setNode hleafIndex (some (.leaf signed.leaf))
    rw [pow_zero, Nat.div_one] at hagree hleafIndex
    have hparentHash : signed.parentHash = leafHash := by
      obtain ⟨signature, -, hs⟩ := bind_eq_ok.mp hsigned
      rw [← Except.ok.inj hs]
    refine ⟨⟨hd30, hi, ?_, ?_, ?_, ?_, ?_⟩, ⟨_, horig⟩, hroot⟩
    · simp only [length_setNode, hlen₂]
    · rw [slot_setNode hleafIndex, if_pos ⟨rfl, rfl⟩]
    · refine ⟨t₂, r, hagree.symm, ?_⟩
      rw [pow_zero, Nat.div_one, hparentHash]
      exact hcalc
    · intro m hm
      obtain ⟨p, mid, hp, ⟨p₀, hp₀, -, hun⟩, hmid, -, hbelow, r', hc⟩ :=
        hw.node hlen₁ hi hlt' hfall (List.mem_reverse.mpr hm)
      obtain ⟨key₀, hkey₀⟩ := hon m hm
      rw [hbelow m le_rfl, hkey₀, Option.some.injEq, Node.parent.injEq] at hp₀
      refine ⟨p, ?_, by rw [hun, ← hp₀], mid, r', hmid.trans hagree.symm (Nat.zero_le _), hc⟩
      rw [slot_setNode hleafIndex, if_neg (by omega), hp]
    · intro k j h0 hkj
      rw [slot_setNode hleafIndex, if_neg h0,
        hw.other hlen₁ hi hlt' (fun m hm => hkj m (List.mem_reverse.mp hm)), hoff k j hkj]

end WebcryptoMls
