import WebcryptoMls.Commits
import WebcryptoMls.HostileTrees

/-!
# The ratchet_tree extension

A tree is sent as its nodes up to the last non-blank one, and widened again to the
least full width that holds them. A reachable tree has a leaf in its right half, so
the least width is the one it had. What was sent ends in a non-blank node, so
cutting the widened tree gives back what was sent.
-/
namespace WebcryptoMls
open PrefixCode
open InOrder (index size)

/-! ## Nodes -/

theorem canonical_nodeType : Canonical encodeNodeType decodeNodeType := canonical_enum

theorem recovers_nodeType (nodeType : NodeTypeName) :
    Recovers decodeNodeType (encodeNodeType nodeType) nodeType :=
  recovers_enum (by cases nodeType <;> rfl)

theorem canonical_parentNode : Canonical encodeParentNode decodeParentNode :=
  .field canonical_varLenData (fun _ => .bind fun _ => .bind fun _ => .pure rfl) fun _ =>
  .field canonical_varLenData (fun _ => .bind fun _ => .pure rfl) fun _ =>
  .field (canonical_varLenType (canonical_uint_toNat 4)) (fun _ => .pure rfl) fun _ =>
  canonical_nil

theorem recovers_parentNode (p : ParentNode) :
    Recovers decodeParentNode (encodeParentNode p) p :=
  .field (recovers_varLenData _) <|
  .field (recovers_varLenData _) <|
  .field (recovers_varLenType ((nonEmpty_uint (w := 4) (by decide)).comp _)
    fun n _ => recovers_uint_toNat 4 n)
    recovers_nil

theorem encodeNode_parent_eq_ok {p : ParentNode} {z : Bytes} :
    encodeNode (.parent p) = .ok z ↔
      ∃ x y, encodeNodeType .parent = .ok x ∧ encodeParentNode p = .ok y ∧ z = x ++ y := by
  simp only [encodeNode, bind_eq_ok]
  simp [pure, Except.pure, eq_comm]

theorem encodeNode_leaf_eq_ok {leaf : LeafNode} {z : Bytes} :
    encodeNode (.leaf leaf) = .ok z ↔
      ∃ x y, encodeNodeType .leaf = .ok x ∧ encodeLeafNode leaf = .ok y ∧ z = x ++ y := by
  simp only [encodeNode, bind_eq_ok]
  simp [pure, Except.pure, eq_comm]

theorem canonical_node : Canonical encodeNode decodeNode := by
  apply canonical_nodeType.tagged
  intro nodeType
  cases nodeType with
  | parent =>
    exact canonical_parentNode.map fun _ y hy x hx => encodeNode_parent_eq_ok.mpr ⟨x, y, hx, hy, rfl⟩
  | leaf =>
    exact canonical_leafNode.map fun _ y hy x hx => encodeNode_leaf_eq_ok.mpr ⟨x, y, hx, hy, rfl⟩

/-- A node a decoder can return. -/
def Node.WellFormed : Node → Prop
  | .parent _ => True
  | .leaf l => l.WellFormed

theorem recovers_node {n : Node} (h : n.WellFormed) : Recovers decodeNode (encodeNode n) n := by
  cases n with
  | parent p =>
    exact (recovers_nodeType .parent).bind (recovers_parentNode p).map
      fun _ hz => encodeNode_parent_eq_ok.mp hz
  | leaf leaf =>
    exact (recovers_nodeType .leaf).bind (recovers_leafNode h).map
      fun _ hz => encodeNode_leaf_eq_ok.mp hz

theorem nonEmpty_optionalNode : NonEmpty (encodeOptional encodeNode) := by
  intro o h
  cases o with
  | none => cases h
  | some n =>
    obtain ⟨y, -, hy⟩ := encodeOptional_some_eq_ok.mp h
    cases hy

/-! ## Cutting and widening -/

theorem stripBlankNodes_append_replicate {nodes : RatchetTree} (m : ℕ)
    (hlast : stripBlankNodes nodes = nodes) :
    stripBlankNodes (nodes ++ List.replicate m none) = nodes := by
  induction m with
  | zero => simpa using hlast
  | succ m ih =>
    rw [List.replicate_succ', ← List.append_assoc, stripBlankNodes,
      List.rdropWhile_concat_pos _ _ _ rfl]
    exact ih

theorem stripBlankNodes_eq_self {nodes : RatchetTree} (hlast : nodeAt nodes (nodes.length - 1) ≠ none) :
    stripBlankNodes nodes = nodes := by
  rcases List.eq_nil_or_concat nodes with rfl | ⟨init, last, rfl⟩
  · rfl
  · rw [List.concat_eq_append] at hlast ⊢
    have hidx : (((init ++ [last]).length : ℕ) : ℤ) - 1 = (init.length : ℕ) := by simp
    rw [hidx, nodeAt, if_neg (by omega), Int.toNat_natCast, List.getElem?_concat_length,
      Option.join_some] at hlast
    rw [stripBlankNodes, List.rdropWhile_concat_neg]
    simpa using hlast

/-- A widened tree is cut to what it was widened from. -/
theorem stripBlankNodes_extendRatchetTree {nodes t : RatchetTree}
    (h : extendRatchetTree nodes = .ok t) : stripBlankNodes t = nodes := by
  simp only [extendRatchetTree] at h
  split_ifs at h with hlast
  · cases h
  · obtain ⟨s, -, h⟩ := bind_eq_ok.mp h
    obtain rfl := Except.ok.inj h
    exact stripBlankNodes_append_replicate _ (stripBlankNodes_eq_self hlast)

/-- A grown tree that is cut and widened is what it was. -/
theorem extendRatchetTree_stripBlankNodes {t : RatchetTree} {d k j : ℕ} (hg : Grown d t)
    (hkj : slot t k j ≠ none) (hshort : (stripBlankNodes t).length ≤ size 29) :
    extendRatchetTree (stripBlankNodes t) = .ok t := by
  have hne : stripBlankNodes t ≠ [] := by
    intro hnil
    rw [← slot_stripBlankNodes, hnil] at hkj
    exact hkj (slot_eq_none_of_le (Nat.zero_le _))
  obtain ⟨s, hs⟩ : ∃ s, nextFullBinaryTreeSize (stripBlankNodes t).length = .ok s :=
    nextFullBinaryTreeSizeLoop_returns (d := 0) hshort (by omega) (by omega)
  obtain ⟨e, -, rfl, hle, hmin⟩ :=
    nextFullBinaryTreeSizeLoop_spec (d := 0) rfl (fun e he => absurd he (by omega)) hs
  have hstrip : (stripBlankNodes t).length ≤ size d := by
    rw [← hg.length]
    exact (List.rdropWhile_prefix Option.isNone t).length_le
  have hed : e = d := by
    rcases Nat.lt_trichotomy e d with hlt | heq | hgt
    · -- a leaf of the right half stands past every smaller width
      obtain ⟨u, hu, hslot⟩ := hg.right.resolve_left (by omega)
      rw [← slot_stripBlankNodes] at hslot
      obtain ⟨n, hn⟩ := Option.ne_none_iff_exists'.mp hslot
      have hin := index_lt_of_slot hn
      have hsize := InOrder.size_add_one (d - 1)
      have hmono := size_mono (show e ≤ d - 1 by omega)
      rw [pow_succ] at hsize
      rw [InOrder.index_zero] at hin
      omega
    · exact heq
    · have := hmin d hgt
      omega
  subst hed
  rw [extendRatchetTree]
  simp only [if_neg (nodeAt_stripBlankNodes_last hne), hs, ok_bind]
  refine congrArg Except.ok (ext_slot ?_ fun k j _ => ?_)
  · rw [List.length_append, List.length_replicate, hg.length]
    omega
  · rw [slot_append_replicate_none, slot_stripBlankNodes]

/-- Every operation leaves a leaf. -/
theorem Reachable.exists_leaf {t : RatchetTree} (h : Reachable t) : ∃ i, slot t 0 i ≠ none := by
  cases h with
  | init leaf => exact ⟨0, by simp [slot_singleton]⟩
  | addLeafNode ht h =>
    obtain ⟨-, d, hg⟩ := ht.invariant
    obtain ⟨i, d', -, -, hadd, -⟩ := addLeafNode_added hg h
    exact ⟨i, by simp [hadd.leaf]⟩
  | updateLeafNode ht h =>
    obtain ⟨-, d, hg⟩ := ht.invariant
    exact ⟨_, by rw [(updateLeafNode_blanked hg h).1.leaf]; simp⟩
  | removeLeafNode ht h =>
    obtain ⟨hinv, d, hg⟩ := ht.invariant
    obtain ⟨-, -, d', -, -, -, k, j, hkj, -⟩ := removeLeafNode_spec hg.length hg.depth h
    obtain ⟨n, hn⟩ := Option.ne_none_iff_exists'.mp hkj
    obtain ⟨u, -, hu⟩ := (hinv.isCovered.blanked
      (removeLeafNode_blanked hinv.isCovered hg h).1).exists_leaf hn (InOrder.below_refl k j)
    exact ⟨u, hu⟩
  | createUpdatePath ht h =>
    obtain ⟨-, d, hg⟩ := ht.invariant
    exact ⟨_, by rw [(createUpdatePath_spec hg.length hg.depth h).1.leaf]; simp⟩
  | applyUpdatePath ht h =>
    obtain ⟨-, d, hg⟩ := ht.invariant
    exact ⟨_, by rw [(applyUpdatePath_spec hg.length hg.depth h).1.leaf]; simp⟩

theorem unmergedLeavesInRange_of_represented {t : RatchetTree} {d : ℕ} (ht : Represented t)
    (hlen : t.length = size d) : unmergedLeavesInRange t = true := by
  rw [unmergedLeavesInRange, hlen, leafWidth_size, List.all_eq_true]
  intro slot hslot
  rcases slot with _ | p | l
  · rfl
  · obtain ⟨m, hm⟩ := List.mem_iff_getElem?.mp hslot
    obtain ⟨k, j, rfl⟩ := InOrder.exists_index m
    have hp : WebcryptoMls.slot t k j = some (.parent p) := by rw [slot_eq_getElem?, hm]; rfl
    rw [nodeInRange, List.all_eq_true]
    intro u hu
    obtain ⟨n, hn⟩ := Option.ne_none_iff_exists'.mp (ht.unmerged k j p u hp hu).2
    have hlt := InOrder.leaf_lt_size.mp (hlen ▸ index_lt_of_slot hn)
    exact decide_eq_true (by exact_mod_cast hlt)
  · rfl

/-! ## There and back -/

/-- Contents the wire has a form for. -/
structure WireRepresentable (n : Node) : Prop where
  wellFormed : n.WellFormed
  encodes : ∃ x, encodeNode n = .ok x

theorem mem_stripBlankNodes {t : RatchetTree} {o : Option Node} (h : o ∈ stripBlankNodes t) :
    o ∈ t := (List.rdropWhile_prefix Option.isNone t).subset h

theorem encodeRatchetTree_eq_ok {t : RatchetTree} {b : Bytes} :
    encodeRatchetTree t = .ok b ↔ ∃ body, items (encodeOptional encodeNode) (stripBlankNodes t) =
      .ok body ∧ encodeVarLenData body = .ok b :=
  encodeVarLenType_eq_ok

theorem length_le_of_items {α : Type} {enc : Encoder α} (hne : NonEmpty enc) {l : List α}
    {body : Bytes} (h : items enc l = .ok body) : l.length ≤ body.length := by
  induction l generalizing body with
  | nil => exact Nat.zero_le _
  | cons a l ih =>
    obtain ⟨x, y, hx, hy, rfl⟩ := items_cons_eq_ok.mp h
    have hpos : x.length ≠ 0 := by
      intro h0
      rw [List.length_eq_zero_iff] at h0
      exact hne a (h0 ▸ hx)
    have := ih hy
    rw [List.length_cons, List.length_append]
    omega

theorem encodeVarLenData_lt {data b : Bytes} (h : encodeVarLenData data = .ok b) :
    data.length < 2 ^ 30 := by
  obtain ⟨x, hx, -⟩ := encodeVarLenData_eq_ok.mp h
  rcases encodeLength_eq_ok hx with ⟨hlt, -⟩ | ⟨hlt, -⟩ | ⟨hlt, -⟩ <;> omega

theorem items_returns {α : Type} {enc : Encoder α} {l : List α}
    (h : ∀ a ∈ l, ∃ x, enc a = .ok x) : ∃ body, items enc l = .ok body := by
  induction l with
  | nil => exact ⟨[], rfl⟩
  | cons a l ih =>
    obtain ⟨x, hx⟩ := h a (List.mem_cons_self ..)
    obtain ⟨y, hy⟩ := ih fun a ha => h a (List.mem_cons_of_mem _ ha)
    exact ⟨x ++ y, items_cons_eq_ok.mpr ⟨x, y, hx, hy, rfl⟩⟩

theorem encodeVarLenData_returns {data : Bytes} (h : data.length < 2 ^ 30) :
    ∃ b, encodeVarLenData data = .ok b := by
  have hlength : ∃ x, encodeLength data.length = .ok x := by
    rw [encodeLength]
    split_ifs
    · exact ⟨_, rfl⟩
    · exact ⟨_, rfl⟩
    · exact ⟨_, rfl⟩
    · omega
  obtain ⟨x, hx⟩ := hlength
  exact ⟨x ++ data, encodeVarLenData_eq_ok.mpr ⟨x, hx, rfl⟩⟩

theorem treeOfNodes_stripBlankNodes {t : RatchetTree} (ht : Reachable t)
    (hshort : (stripBlankNodes t).length ≤ size 29) :
    treeOfNodes (stripBlankNodes t) = .ok (some t) := by
  obtain ⟨hinv, d, hg⟩ := ht.invariant
  obtain ⟨i, hi⟩ := ht.exists_leaf
  have hne : stripBlankNodes t ≠ [] := by
    intro hnil
    rw [← slot_stripBlankNodes, hnil] at hi
    exact hi (slot_eq_none_of_le (Nat.zero_le _))
  rw [treeOfNodes, if_neg (nodeAt_stripBlankNodes_last hne),
    extendRatchetTree_stripBlankNodes hg hi hshort, ok_bind,
    if_pos (unmergedLeavesInRange_of_represented hinv.represented hg.length)]
  rfl

theorem decodeRatchetTree_encoded {t : RatchetTree} (ht : Reachable t)
    (hnodes : ∀ n, some n ∈ t → WireRepresentable n) {b : Bytes}
    (h : encodeRatchetTree t = .ok b) : decodeRatchetTree b 0 = .ok (some (t, b.length)) := by
  obtain ⟨body, hbody, hb⟩ := encodeRatchetTree_eq_ok.mp h
  have hshort : (stripBlankNodes t).length ≤ size 29 := by
    have h1 := length_le_of_items nonEmpty_optionalNode hbody
    have h2 := encodeVarLenData_lt hb
    have h3 : size 29 = 2 ^ 30 - 1 := rfl
    omega
  have hvector : Recovers (decodeVarLenType (decodeOptional decodeNode))
      (encodeVarLenType (encodeOptional encodeNode) (stripBlankNodes t)) (stripBlankNodes t) :=
    recovers_varLenType nonEmpty_optionalNode fun o ho => recovers_optional fun n hn =>
      recovers_node (hnodes n (mem_stripBlankNodes (hn ▸ ho))).wellFormed
  have hdecoded := hvector [] b [] h
  rw [List.nil_append, List.append_nil, List.length_nil] at hdecoded
  rw [decodeRatchetTree, hdecoded]
  dsimp only
  rw [treeOfNodes_stripBlankNodes ht hshort]
  rfl

theorem encodeRatchetTree_decoded {b : Bytes} {t : RatchetTree} {len : ℕ}
    (h : decodeRatchetTree b 0 = .ok (some (t, len))) :
    len ≤ b.length ∧ encodeRatchetTree t = .ok (b.take len) := by
  unfold decodeRatchetTree at h
  split at h
  · cases h
  · cases h
  · rename_i nodes len' hdecoded
    obtain ⟨tree, htree, h⟩ := bind_eq_ok.mp h
    obtain ⟨x, hx, rfl, hpre⟩ :=
      canonical_varLenType (canonical_optional canonical_node) b 0 nodes len' (Nat.zero_le _) hdecoded
    unfold treeOfNodes at htree
    split_ifs at htree
    · cases htree
      cases h
    · obtain ⟨t', ht', htree⟩ := bind_eq_ok.mp htree
      split_ifs at htree
      · cases htree
        cases h
        rw [List.drop_zero] at hpre
        refine ⟨hpre.length_le, ?_⟩
        rw [← List.prefix_iff_eq_take.mp hpre, encodeRatchetTree, contramapEncoder,
          stripBlankNodes_extendRatchetTree ht', hx]
      · cases htree
        cases h

/-- Every reachable tree with such contents that fits a vector comes back as it was, and
every accepted string is the encoding of the tree it stands for. -/
theorem ratchetTree_extension_round_trip :
    (∀ t, Reachable t → (∀ n, some n ∈ t → WireRepresentable n) →
      (∀ body, items (encodeOptional encodeNode) (stripBlankNodes t) = .ok body →
        body.length < 2 ^ 30) →
      ∃ b, encodeRatchetTree t = .ok b ∧ decodeRatchetTree b 0 = .ok (some (t, b.length))) ∧
    ∀ b t len, decodeRatchetTree b 0 = .ok (some (t, len)) →
      len ≤ b.length ∧ encodeRatchetTree t = .ok (b.take len) := by
  refine ⟨fun t ht hnodes hfits => ?_, fun b t len h => encodeRatchetTree_decoded h⟩
  obtain ⟨body, hbody⟩ : ∃ body, items (encodeOptional encodeNode) (stripBlankNodes t) = .ok body := by
    refine items_returns fun o ho => ?_
    cases o with
    | none => exact ⟨_, rfl⟩
    | some n =>
      obtain ⟨x, hx⟩ := (hnodes n (mem_stripBlankNodes ho)).encodes
      exact ⟨_, encodeOptional_some_eq_ok.mpr ⟨x, hx, rfl⟩⟩
  obtain ⟨b, hb⟩ := encodeVarLenData_returns (hfits body hbody)
  have hencoded := encodeRatchetTree_eq_ok.mpr ⟨body, hbody, hb⟩
  exact ⟨b, hencoded, decodeRatchetTree_encoded ht hnodes hencoded⟩

theorem default_wireRepresentable : WireRepresentable (.leaf default) where
  wellFormed := ⟨trivial, ⟨nofun, nofun, nofun⟩, ⟨⟨le_rfl, by decide⟩, ⟨le_rfl, by decide⟩⟩, nofun⟩
  encodes := ⟨_, rfl⟩

/-- The tree of three members. -/
theorem ratchetTree_extension_round_trip_three : ∃ b, encodeRatchetTree threeLeaves = .ok b ∧
    decodeRatchetTree b 0 = .ok (some (threeLeaves, b.length)) := by
  refine ratchetTree_extension_round_trip.1 threeLeaves threeLeaves_reachable (fun n hn => ?_)
    fun body hbody => ?_
  · obtain rfl : n = .leaf default := by simpa [threeLeaves] using hn
    exact default_wireRepresentable
  · have hlen : ((items (encodeOptional encodeNode) (stripBlankNodes threeLeaves)).map fun body =>
        decide (body.length < 2 ^ 30)) = .ok true := by decide +kernel
    rw [hbody, map_ok, Except.ok.injEq] at hlen
    exact of_decide_eq_true hlen

/-- 2 ^ 29 + 1 leaves take more than 2 ^ 30 nodes, which no vector holds. -/
theorem exists_tree_not_encoded : ∃ t, Reachable t ∧ (∀ n, some n ∈ t → WireRepresentable n) ∧
    ∀ b, encodeRatchetTree t ≠ .ok b := by
  obtain ⟨t, d, ⟨ht, hall⟩, hf⟩ := exists_filledUpTo (l := default) (m := 1) (n := 2 ^ 29 + 1)
    (P := fun t => Reachable t ∧ ∀ k j n, slot t k j = some n → n = .leaf default)
    (fun t t' x h hadd => ⟨h.1.addLeafNode hadd, fun k j n hn => by
      obtain ⟨-, d, hg⟩ := h.1.invariant
      obtain ⟨i, d', -, -, -, -, -, -, -, hslot⟩ := addLeafNode_spec hg.length hg.depth hadd
      rw [hslot] at hn
      split_ifs at hn
      · exact (Option.some.inj hn).symm
      · obtain ⟨n₀, hn₀, rfl⟩ := Option.map_eq_some_iff.mp hn
        rw [h.2 k j n₀ hn₀, Node.addUnmerged]
      · exact h.2 k j n hn⟩)
    ⟨[some (.leaf default)], 0, ⟨.init default, fun k j n hn => by
      rw [slot_singleton] at hn
      split_ifs at hn
      exact (Option.some.inj hn).symm⟩, filledUpTo_singleton default⟩ (by omega) (by omega)
  refine ⟨t, ht, fun n hn => ?_, fun b hb => ?_⟩
  · obtain ⟨m, hm⟩ := List.mem_iff_getElem?.mp hn
    obtain ⟨k, j, rfl⟩ := InOrder.exists_index m
    rw [hall k j n (by rw [slot_eq_getElem?, hm]; rfl)]
    exact default_wireRepresentable
  · obtain ⟨body, hbody, hvector⟩ := encodeRatchetTree_eq_ok.mp hb
    have h1 := length_le_of_items nonEmpty_optionalNode hbody
    have h2 := encodeVarLenData_lt hvector
    obtain ⟨n, hn⟩ := Option.ne_none_iff_exists'.mp ((hf.leaf (2 ^ 29)).mpr (by omega))
    rw [← slot_stripBlankNodes] at hn
    have h3 := index_lt_of_slot hn
    rw [InOrder.index_zero] at h3
    omega

end WebcryptoMls
