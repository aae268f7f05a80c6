import WebcryptoMls.HashInvariant
import WebcryptoMls.PathSecrets
import WebcryptoMls.TreeKeys

/-!
# Sender and receivers of an update path

The sender resolves its copath in the tree before the path, a receiver in the
tree after it. No node of a copath subtree is written, so both find the same
levels and the same recipients in the same order: a receiver writes the sender's
tree, picks the ciphertext sealed to a key it holds, and derives the sender's
secrets from there on.
-/
namespace WebcryptoMls
open InOrder (index size Below)
open Records

section
variable {t t' : RatchetTree} {h : Hash} {d i : ℕ} {c : LeafNodeCommit}

theorem PathWritten.resolutionAt_copath (hw : PathWritten h t t' d i c) (m : ℕ) :
    resolutionAt t' m (sib (i / 2 ^ m)) = resolutionAt t m (sib (i / 2 ^ m)) :=
  resolutionAt_congr fun _ _ hb => hw.off (not_below_sibling hb)

theorem PathWritten.filteredLevels_eq (hw : PathWritten h t t' d i c) :
    filteredLevels t' d i = filteredLevels t d i := by
  simp only [filteredLevels, hw.resolutionAt_copath]

end

/-! ## Writing the path that was sent -/

/-- The parent a received node becomes, with the hash found in the sender's tree. -/
structure WrittenAs (h : Hash) (t' : RatchetTree) (i : ℕ) (entry : ℕ × UpdatePathNode)
    (p : ParentNode) : Prop where
  slot : slot t' (entry.1 + 1) (i / 2 ^ (entry.1 + 1)) = some (.parent p)
  key : p.hpkePublicKey = entry.2.hpkePublicKey
  merged : p.unmergedLeaves = []
  hashed : HashedAt h t' i (entry.1 + 1) p.parentHash

/-- The receiver's loop restores the sender's nodes, from the root down: the hash
of a node depends on nodes that are in place already. -/
theorem writeReceived_eq {h : Hash} {t' c : RatchetTree} {d i : ℕ} {entries : List (ℕ × UpdatePathNode)}
    (hd : d ≤ 30) (hi : i < 2 ^ d) (hlen : t'.length = size d) (hmerged : MergedAbove t' i 0)
    (hfall : (entries.map Prod.fst).Pairwise (· > ·)) (hlt : ∀ e ∈ entries, e.1 < d)
    (hnode : ∀ e ∈ entries, ∃ p, WrittenAs h t' i e p) (hclen : c.length = size d)
    (hc : ∀ k j, (∀ e ∈ entries, ¬ (k = e.1 + 1 ∧ j = i / 2 ^ (e.1 + 1))) →
      slot c k j = slot t' k j) :
    writeReceived h i entries c = .ok t' := by
  induction entries generalizing c with
  | nil =>
    have hct : c = t' := ext_slot (hclen.trans hlen.symm) fun k j _ => hc k j (by simp)
    rw [hct]
    rfl
  | cons e entries ih =>
    rw [List.forall_mem_cons] at hlt hnode
    rw [List.map_cons, List.pairwise_cons] at hfall
    obtain ⟨p, hp⟩ := hnode.1
    have hplace : index (e.1 + 1) (i / 2 ^ (e.1 + 1)) < c.length := by
      rw [hclen]
      exact pathNode_lt hlt.1 hi
    have hagree : AgreeAbove c t' i (e.1 + 1) := by
      refine ⟨hclen.trans hlen.symm, fun k' j hk' => hc k' j fun e' he' heq => ?_⟩
      have hle : e'.1 ≤ e.1 := by
        rcases List.mem_cons.mp he' with rfl | he'
        · exact le_rfl
        · exact (hfall.1 e'.1 (List.mem_map_of_mem he')).le
      obtain ⟨rfl, rfl⟩ := heq
      rcases hk' with hk' | hk'
      · omega
      · exact hk' rfl
    have habove : MergedAbove t' i (e.1 + 1) := fun m n hm hn => hmerged m n (by omega) hn
    obtain ⟨r, hcalc⟩ := hp.hashed.calculateParentHash hlen hd hi (by omega) habove
    have hcalc' : calculateParentHash c (pathNode i e.1) h = .ok (p.parentHash, r) := by
      rw [← hcalc]
      exact calculateParentHash_congr hagree hlen hd hi (by omega) habove
    have hround : writePathNode h c (pathNode i e.1) e.2 =
        .ok (setNode c (pathNode i e.1) (some (.parent p))) := by
      rw [writePathNode, hcalc', ok_bind, ← hp.key, ← hp.merged]
      rfl
    rw [writeReceived, List.map_cons, List.foldlM_cons]
    simp only [hround, ok_bind]
    refine ih hfall.2 hlt.2 hnode.2 (by rw [length_setNode, hclen]) fun k j hkj => ?_
    rw [pathNode, slot_setNode hplace]
    split_ifs with heq
    · rw [heq.1, heq.2, hp.slot]
    · exact hc k j fun e' he' => (List.mem_cons.mp he').elim (fun h => h ▸ heq) (hkj e')

/-- The keys a path brings into the tree. -/
def newKeys (path : UpdatePath) : List Bytes :=
  path.leafNode.leaf.hpkePublicKey :: path.nodes.map UpdatePathNode.hpkePublicKey

/-- The keys of a path differ from each other and from all keys of the tree. -/
structure FreshKeys (t : RatchetTree) (path : UpdatePath) : Prop where
  distinct : (newKeys path).Nodup
  fresh : ∀ key ∈ newKeys path, key ∉ keysOf t

theorem keyInTree_iff {t : RatchetTree} {key : Bytes} : keyInTree t key = true ↔ key ∈ keysOf t := by
  simp only [keyInTree, List.any_eq_true, keysOf, Set.mem_ofPred_eq]
  constructor
  · rintro ⟨node, hnode, hkey⟩
    cases node with
    | none => cases hkey
    | some node => exact ⟨node, hnode, constantTimeEqual_iff.mp hkey⟩
  · rintro ⟨node, hnode, hkey⟩
    exact ⟨some node, hnode, constantTimeEqual_iff.mpr hkey⟩

theorem hasDuplicateKeyWithinPath_eq_false {nodes : List UpdatePathNode}
    (h : (nodes.map UpdatePathNode.hpkePublicKey).Nodup) : hasDuplicateKeyWithinPath nodes = false := by
  rw [← Bool.not_eq_true, hasDuplicateKeyWithinPath, List.any_eq_true]
  rintro ⟨⟨node, x⟩, hx, hany⟩
  obtain ⟨⟨other, y⟩, hy, hsame⟩ := List.any_eq_true.mp hany
  rw [Bool.and_eq_true, bne_iff_ne, constantTimeEqual_iff] at hsame
  rw [List.mem_zipIdx_iff_getElem?] at hx hy
  have hlt : x < (nodes.map UpdatePathNode.hpkePublicKey).length := by
    rw [List.length_map]
    exact (List.getElem?_eq_some_iff.mp hx).1
  refine hsame.1 ((List.getElem?_inj hlt h).mp ?_)
  simp only [List.getElem?_map] at hx hy ⊢
  rw [hx, hy, Option.map_some, Option.map_some, hsame.2]

theorem FreshKeys.validateUpdatePathKeys {t : RatchetTree} {i : ℕ} {path : UpdatePath} {l : LeafNode}
    (hf : FreshKeys t path) (hl : slot t 0 i = some (.leaf l)) :
    WebcryptoMls.validateUpdatePathKeys t i path false = .ok () := by
  obtain ⟨hdistinct, hfresh⟩ := hf
  rw [newKeys, List.nodup_cons] at hdistinct
  have hleaf : l.hpkePublicKey ≠ path.leafNode.leaf.hpkePublicKey := fun heq =>
    hfresh _ (List.mem_cons_self ..) (heq ▸ mem_keysOf (mem_of_nodeAt hl))
  have htree : (path.nodes.any fun node => keyInTree t node.hpkePublicKey) = false := by
    rw [← Bool.not_eq_true, List.any_eq_true]
    rintro ⟨node, hnode, hkey⟩
    exact hfresh _ (List.mem_cons_of_mem _ (List.mem_map_of_mem hnode)) (keyInTree_iff.mp hkey)
  have hpath : ¬ ∃ node ∈ path.nodes, node.hpkePublicKey = path.leafNode.leaf.hpkePublicKey :=
    fun ⟨node, hnode, hkey⟩ => hdistinct.1 (List.mem_map.mpr ⟨node, hnode, hkey⟩)
  simp [WebcryptoMls.validateUpdatePathKeys, leafToNodeIndex_eq, nodeAt_coord, hl, htree, hpath,
    hasDuplicateKeyWithinPath_eq_false hdistinct.2, constantTimeEqual_eq_decide, hleaf]
  rfl

/-- A receiver of a written path with fresh keys writes the sender's tree. -/
theorem applyUpdatePath_eq {t t' : RatchetTree} {d i : ℕ} {path : UpdatePath} {h : Hash}
    {l : LeafNode} (hlen : t.length = size d) (ht : Covered t)
    (hw : PathWritten h t t' d i path.leafNode) (hl : slot t 0 i = some (.leaf l))
    (hfresh : FreshKeys t path) (hcount : path.nodes.length = (filteredLevels t d i).length)
    (hkeys : ∀ e ∈ receivedNodes t d i path, ∃ p,
      slot t' (e.1 + 1) (i / 2 ^ (e.1 + 1)) = some (.parent p) ∧
        p.hpkePublicKey = e.2.hpkePublicKey) :
    applyUpdatePath t i path h = .ok t' := by
  have hmerged := hw.mergedAbove ht hlen 0
  have hmem : ∀ e ∈ receivedNodes t d i path, e.1 ∈ filteredLevels t d i := fun e he =>
    (List.of_mem_zip (List.mem_reverse.mp he)).1
  have hwritten : ∀ e ∈ receivedNodes t d i path, ∃ p, WrittenAs h t' i e p := by
    intro e he
    obtain ⟨p, hp, hkey⟩ := hkeys e he
    obtain ⟨q, hq, hnil, hhash⟩ := hw.node e.1 (hmem e he)
    obtain rfl : q = p := Node.parent.inj (Option.some.inj (hq.symm.trans hp))
    exact ⟨q, hq, hkey, hnil, hhash⟩
  have hleafIndex : index 0 i < t.length := by rw [hlen]; exact InOrder.leaf_lt_size.mpr hw.leaf_lt
  have hcopy : writeReceived h i (receivedNodes t d i path)
      (setNode t (coord 0 i) (some (.leaf path.leafNode.leaf))) = .ok t' := by
    refine writeReceived_eq hw.depth hw.leaf_lt hw.length hmerged ?_ (fun e he => receivedNodes_lt he)
      hwritten (by rw [length_setNode, hlen]) fun k j hkj => ?_
    · rw [receivedNodes_fst hcount]
      exact filteredLevels_reverse_sorted t d i
    · rw [slot_setNode hleafIndex]
      split_ifs with h0
      · rw [h0.1, h0.2, hw.leaf]
      · refine (hw.other k j h0 fun m hm => ?_).symm
        have hfst : m ∈ (receivedNodes t d i path).map Prod.fst := by
          rw [receivedNodes_fst hcount]
          exact List.mem_reverse.mpr hm
        obtain ⟨e, he, rfl⟩ := List.mem_map.mp hfst
        exact hkj e he
  obtain ⟨r, hleafHash⟩ := hw.leafHash.calculateParentHash hw.length hw.depth hw.leaf_lt
    (Nat.zero_le d) hmerged
  rw [pow_zero, Nat.div_one] at hleafHash
  rw [writeReceived, ← receivedNodes_zip hcount] at hcopy
  rw [applyUpdatePath, hfresh.validateUpdatePathKeys hl, ok_bind,
    filteredDirectPath_coord hlen hw.depth hw.leaf_lt, ok_bind, if_neg (by simp [hcount]),
    leafToNodeIndex_eq, hcopy, ok_bind, hleafHash, ok_bind]
  simp [constantTimeEqual_iff.mpr]
  rfl

end WebcryptoMls
