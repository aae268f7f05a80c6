import WebcryptoMls.EpochSteps

/-!
# Keys of a tree

The keys a tree's nodes carry. A proposal brings in the keys of the leaves it carries, and
a path those of its leaf and of its nodes, each in its own place: a direct path never
returns to a place, and stays inside the array, whatever its length.
-/
namespace WebcryptoMls

def keysOf (tree : RatchetTree) : Set Bytes :=
  {key | ∃ node, some node ∈ tree ∧ getHpkePublicKey node = key}

theorem mem_keysOf {tree : RatchetTree} {node : Node} (h : some node ∈ tree) :
    getHpkePublicKey node ∈ keysOf tree := ⟨node, h, rfl⟩

theorem keysOf_mono {t t' : RatchetTree} (h : ∀ node, some node ∈ t' → some node ∈ t) :
    keysOf t' ⊆ keysOf t := by
  rintro key ⟨node, hnode, rfl⟩
  exact mem_keysOf (h node hnode)

theorem mem_of_nodeAt {tree : RatchetTree} {i : ℤ} {node : Node} (h : nodeAt tree i = some node) :
    some node ∈ tree := by
  unfold nodeAt at h
  split_ifs at h
  rw [Option.join_eq_some_iff] at h
  exact List.mem_of_getElem? h

theorem mem_setNode {tree : RatchetTree} {i : ℤ} {v : Option Node} {node : Node}
    (h : some node ∈ setNode tree i v) : some node ∈ tree ∨ v = some node := by
  unfold setNode at h
  split_ifs at h
  · exact .inl h
  · rcases List.mem_or_eq_of_mem_set h with h | h
    · exact .inl h
    · exact .inr h.symm

theorem keysOf_setNode_none (tree : RatchetTree) (i : ℤ) : keysOf (setNode tree i none) ⊆ keysOf tree :=
  keysOf_mono fun node h => (mem_setNode h).resolve_right (by simp)

theorem keysOf_setNode (tree : RatchetTree) (i : ℤ) (node : Node) :
    keysOf (setNode tree i (some node)) ⊆ insert (getHpkePublicKey node) (keysOf tree) := by
  rintro key ⟨node', h, rfl⟩
  rcases mem_setNode h with h | h
  · exact Set.mem_insert_of_mem _ (mem_keysOf h)
  · rw [Option.some.inj h]
    exact Set.mem_insert _ _

/-! ## Proposals -/

theorem keysOf_blankPath (tree : RatchetTree) (path : List ℤ) :
    keysOf (blankPath tree path) ⊆ keysOf tree := by
  unfold blankPath
  suffices h : ∀ copy : RatchetTree, keysOf copy ⊆ keysOf tree → keysOf (path.foldl (fun copy nodeIndex =>
      if nodeAt tree nodeIndex ≠ none then setNode copy nodeIndex none else copy) copy) ⊆
        keysOf tree from h tree subset_rfl
  induction path with
  | nil => exact fun copy hcopy => hcopy
  | cons i path ih =>
    intro copy hcopy
    rw [List.foldl_cons]
    apply ih
    split_ifs
    · exact (keysOf_setNode_none copy i).trans hcopy
    · exact hcopy

theorem keysOf_updateLeafNode {t t' : RatchetTree} {leafNode : LeafNode} {i : ℕ}
    (h : updateLeafNode t leafNode i = .ok t') : keysOf t' ⊆ insert leafNode.hpkePublicKey (keysOf t) := by
  obtain ⟨path, -, h⟩ := bind_eq_ok.mp h
  rw [← Except.ok.inj h]
  exact (keysOf_setNode _ _ _).trans (Set.insert_subset_insert (keysOf_blankPath t path))

theorem keysOf_stripBlankNodes (tree : RatchetTree) : keysOf (stripBlankNodes tree) ⊆ keysOf tree :=
  keysOf_mono fun _ h => (List.rdropWhile_prefix _ _).subset h

theorem keysOf_extendRatchetTree {t t' : RatchetTree} (h : extendRatchetTree t = .ok t') :
    keysOf t' ⊆ keysOf t := by
  simp only [extendRatchetTree] at h
  split_ifs at h
  · cases h
  · obtain ⟨size, -, h⟩ := bind_eq_ok.mp h
    obtain rfl := Except.ok.inj h
    exact keysOf_mono fun node hnode => by simpa using hnode

theorem keysOf_removeLeafNode {t t' : RatchetTree} {i : ℕ} (h : removeLeafNode t i = .ok t') :
    keysOf t' ⊆ keysOf t := by
  obtain ⟨path, -, h⟩ := bind_eq_ok.mp h
  simp only [condenseRatchetTreeAfterRemove] at h
  split_ifs at h
  calc keysOf t' ⊆ keysOf (stripBlankNodes (setNode (blankPath t path) (leafToNodeIndex i) none)) :=
        keysOf_extendRatchetTree h
    _ ⊆ keysOf (setNode (blankPath t path) (leafToNodeIndex i) none) := keysOf_stripBlankNodes _
    _ ⊆ keysOf (blankPath t path) := keysOf_setNode_none _ _
    _ ⊆ keysOf t := keysOf_blankPath t path

theorem keysOf_addUnmergedLeaf {t c c' : RatchetTree} {i : ℕ} {n : ℤ} (hc : keysOf c ⊆ keysOf t)
    (h : addUnmergedLeaf t i c n = .ok c') : keysOf c' ⊆ keysOf t := by
  unfold addUnmergedLeaf at h
  split at h
  · rwa [← Except.ok.inj h]
  · rename_i parent hparent
    rw [← Except.ok.inj h]
    have hkey : parent.hpkePublicKey ∈ keysOf t := mem_keysOf (mem_of_nodeAt hparent)
    exact (keysOf_setNode _ _ _).trans (Set.insert_subset hkey hc)
  · cases h

theorem keysOf_addLeafNode {t t' : RatchetTree} {leafNode : LeafNode} {n : ℤ}
    (h : addLeafNode t leafNode = .ok (t', n)) :
    keysOf t' ⊆ insert leafNode.hpkePublicKey (keysOf t) := by
  unfold addLeafNode at h
  split at h
  · simp only [extendTree] at h
    split_ifs at h
    obtain ⟨rfl, -⟩ := Prod.mk.inj (Except.ok.inj h)
    rintro key ⟨node, hnode, rfl⟩
    simp only [List.mem_append, List.mem_cons, reduceCtorEq, Option.some.injEq, false_or,
      List.mem_replicate, and_false, or_false] at hnode
    rcases hnode with hnode | rfl
    · exact Set.mem_insert_of_mem _ (mem_keysOf hnode)
    · exact Set.mem_insert _ _
  · obtain ⟨i, -, h⟩ := bind_eq_ok.mp h
    obtain ⟨path, -, h⟩ := bind_eq_ok.mp h
    obtain ⟨copy, hcopy, h⟩ := bind_eq_ok.mp h
    obtain ⟨rfl, -⟩ := Prod.mk.inj (Except.ok.inj h)
    have hkeys : keysOf copy ⊆ keysOf t :=
      foldlM_inv (P := fun c => keysOf c ⊆ keysOf t) subset_rfl
        (fun n _ b c hb hc => keysOf_addUnmergedLeaf hb hc) hcopy
    exact (keysOf_setNode _ _ _).trans (Set.insert_subset_insert hkeys)

/-! ## Direct paths -/

theorem directPathLoop_unique {w : ℚ} {r : ℤ} {fuel fuel' : ℕ} {n : ℤ} {l l' : List ℤ}
    (h : directPathLoop w r fuel n = .ok l) (h' : directPathLoop w r fuel' n = .ok l') : l = l' := by
  induction fuel generalizing fuel' n l l' with
  | zero => cases h
  | succ fuel ih =>
    cases fuel' with
    | zero => cases h'
    | succ fuel' =>
      unfold directPathLoop at h h'
      split_ifs at h h' with hn
      · exact (Except.ok.inj h).symm.trans (Except.ok.inj h')
      · obtain ⟨p, hp, h⟩ := bind_eq_ok.mp h
        obtain ⟨d, hd, h⟩ := bind_eq_ok.mp h
        obtain ⟨p', hp', h'⟩ := bind_eq_ok.mp h'
        obtain ⟨d', hd', h'⟩ := bind_eq_ok.mp h'
        obtain rfl := Except.ok.inj (hp.symm.trans hp')
        rw [← Except.ok.inj h, ← Except.ok.inj h', ih hd hd']

/-- From every place on it the walk goes on to the same end. -/
theorem directPathLoop_tail {w : ℚ} {r : ℤ} {fuel : ℕ} {n p : ℤ} {a b : List ℤ}
    (h : directPathLoop w r fuel n = .ok (a ++ p :: b)) :
    ∃ fuel', directPathLoop w r fuel' p = .ok b := by
  induction fuel generalizing n a with
  | zero => cases h
  | succ fuel ih =>
    unfold directPathLoop at h
    split_ifs at h with hn
    · have := Except.ok.inj h
      simp at this
    · obtain ⟨p', hp', h⟩ := bind_eq_ok.mp h
      obtain ⟨d, hd, h⟩ := bind_eq_ok.mp h
      have heq : p' :: d = a ++ p :: b := Except.ok.inj h
      cases a with
      | nil =>
        obtain ⟨rfl, rfl⟩ := List.cons.inj heq
        exact ⟨fuel, hd⟩
      | cons q a =>
        obtain ⟨-, rfl⟩ := List.cons.inj heq
        exact ih hd

/-- A walk that came back to a place would not end. -/
theorem directPathLoop_nodup {w : ℚ} {r : ℤ} {fuel : ℕ} {n : ℤ} {l : List ℤ}
    (h : directPathLoop w r fuel n = .ok l) : (n :: l).Nodup := by
  induction l generalizing fuel n with
  | nil => simp
  | cons p l ih =>
    rw [List.nodup_cons]
    constructor
    · intro hmem
      obtain ⟨a, b, hab⟩ := List.append_of_mem hmem
      rw [hab] at h
      obtain ⟨fuel', htail⟩ := directPathLoop_tail h
      have hlen := congrArg List.length (directPathLoop_unique htail h)
      simp only [List.length_append, List.length_cons] at hlen
      omega
    · obtain ⟨fuel', htail⟩ := directPathLoop_tail (a := []) h
      exact ih htail

theorem rootFromNodeWidth_lt {n : ℕ} (h0 : 0 < n) (hn : n < 2 ^ 31) :
    0 ≤ rootFromNodeWidth n ∧ rootFromNodeWidth n < n := by
  obtain ⟨d, hlo, hhi⟩ : ∃ d, 2 ^ d ≤ n ∧ n < 2 ^ (d + 1) :=
    ⟨Nat.log2 n, Nat.log2_self_le h0.ne', Nat.lt_log2_self⟩
  have hd : d ≤ 30 := by
    have := (Nat.pow_lt_pow_iff_right (by norm_num : 1 < 2)).mp (hlo.trans_lt hn)
    omega
  have hlog : log2 (n : ℤ) = d := by
    have := log2Loop_eq hlo hhi hd 32 0 (by omega) (by omega)
    rw [log2, if_neg (by omega)]
    push_cast at this
    omega
  have hpow : 2 ^ d < 2 ^ 31 := Nat.pow_lt_pow_right (by norm_num) (by omega)
  have hshl := Signed32.shl_natCast (a := 1) (c := d) (by omega) (by omega)
  rw [rootFromNodeWidth, hlog]
  push_cast at hshl
  have hpos := Nat.two_pow_pos d
  rw [hshl]
  zify at hlo hpos
  omega

theorem log2Loop_congr {x y : ℤ} (h : ∀ c, Signed32.shr x c = Signed32.shr y c) (fuel : ℕ) (k : ℤ) :
    log2Loop x fuel k = log2Loop y fuel k := by
  induction fuel generalizing k with
  | zero => rfl
  | succ fuel ih => rw [log2Loop, log2Loop, h, ih]

/-- The root is in the tree, or below every number a walk can come to. -/
theorem root_lt_or {n : ℕ} (h0 : 0 < n) :
    rootFromNodeWidth n < -2 ^ 31 ∨ 0 ≤ rootFromNodeWidth n ∧ rootFromNodeWidth n < n := by
  have hcond := BitVec.toInt_eq_toNat_cond (BitVec.ofNat 32 n)
  rw [BitVec.toNat_ofNat] at hcond
  by_cases hhalf : n % 2 ^ 32 < 2 ^ 31
  · -- The operators see a number that is no greater.
    rcases (n % 2 ^ 32).eq_zero_or_pos with hzero | hpos
    · left
      have hwrap : Signed32.wrap (n : ℤ) = 0 := by
        rw [Signed32.wrap_natCast]
        apply BitVec.eq_of_toNat_eq
        simpa using hzero
      have hlog : log2 (n : ℤ) = -1 := by
        rw [log2, if_neg (by omega), log2Loop, if_neg]
        · rfl
        · simp [Signed32.shr, Signed32.count, hwrap]
      rw [rootFromNodeWidth, hlog]
      decide
    · right
      have hwrap : Signed32.wrap (n : ℤ) = Signed32.wrap ((n % 2 ^ 32 : ℕ) : ℤ) := by
        rw [Signed32.wrap_natCast, Signed32.wrap_natCast]
        apply BitVec.eq_of_toNat_eq
        simp
      have hshr (c : ℤ) : Signed32.shr n c = Signed32.shr ((n % 2 ^ 32 : ℕ) : ℤ) c := by
        unfold Signed32.shr
        rw [hwrap]
      have hroot : rootFromNodeWidth n = rootFromNodeWidth (n % 2 ^ 32 : ℕ) := by
        unfold rootFromNodeWidth log2
        rw [if_neg (by omega), if_neg (by omega), log2Loop_congr hshr]
      have hle := Nat.mod_le n (2 ^ 32)
      obtain ⟨hlo, hlt⟩ := rootFromNodeWidth_lt hpos hhalf
      rw [hroot]
      omega
  · left
    have hneg : Signed32.shr n 0 < 0 := by
      rw [Signed32.shr, Signed32.wrap_natCast]
      simp only [Signed32.count, EuclideanDomain.zero_mod, Int.toNat_zero, BitVec.sshiftRight_zero]
      omega
    have hlog : log2 (n : ℤ) = -1 := by
      rw [log2, if_neg (by omega), log2Loop, if_neg (by omega)]
      rfl
    rw [rootFromNodeWidth, hlog]
    decide

theorem root_leafWidth (n : ℕ) : root (leafWidth n) = rootFromNodeWidth n := by
  rw [root, nodeWidth_leafWidth]

/-- A direct path comes to no place twice and stays in the tree. -/
theorem directPath_spec {n : ℤ} {width : ℕ} {path : List ℤ}
    (h : directPath n (leafWidth width) = .ok path) :
    (n :: path).Nodup ∧ ∀ p ∈ path, 0 ≤ p ∧ p < width := by
  simp only [directPath, nodeWidth_leafWidth, root_leafWidth] at h
  split_ifs at h with hn
  · cases h
  · have hwidth : 0 < width := by omega
    refine ⟨directPathLoop_nodup h, ?_⟩
    rcases root_lt_or hwidth with hroot | hroot
    · exact absurd h (directPathLoop_unreachable hroot 33 n (by omega) path)
    · intro p hp
      obtain ⟨a, b, rfl⟩ := List.append_of_mem hp
      obtain ⟨fuel', htail⟩ := directPathLoop_tail h
      cases fuel' with
      | zero => cases htail
      | succ fuel' =>
        unfold directPathLoop at htail
        split_ifs at htail with hr
        · rwa [hr]
        · obtain ⟨q, hq, -⟩ := bind_eq_ok.mp htail
          simp only [parent, nodeWidth_leafWidth] at hq
          split_ifs at hq with hrange
          all_goals first | cases hq | omega

theorem directPathLoop_odd {w : ℚ} {r : ℤ} {fuel : ℕ} {n : ℤ} {path : List ℤ}
    (h : directPathLoop w r fuel n = .ok path) : ∀ p ∈ path, 0 ≤ p → p % 2 = 1 := by
  induction fuel generalizing n path with
  | zero => cases h
  | succ fuel ih =>
    unfold directPathLoop at h
    split_ifs at h
    · obtain rfl := Except.ok.inj h
      simp
    · obtain ⟨q, hq, h⟩ := bind_eq_ok.mp h
      obtain ⟨d, hd, h⟩ := bind_eq_ok.mp h
      obtain rfl := Except.ok.inj h
      rw [List.forall_mem_cons]
      exact ⟨parent_odd hq, ih hd⟩

/-- Nor does it come to a leaf's place. -/
theorem directPath_odd {n : ℤ} {width : ℕ} {path : List ℤ}
    (h : directPath n (leafWidth width) = .ok path) : ∀ p ∈ path, p % 2 = 1 := by
  intro p hp
  have hrange := (directPath_spec h).2 p hp
  simp only [directPath] at h
  split_ifs at h
  · cases h
  · exact directPathLoop_odd h p hp hrange.1

theorem sublist_filterMap_zip {α β : Type} {f : α × β → Option α}
    (hf : ∀ a b c, f (a, b) = some c → c = a) (l : List α) (m : List β) :
    ((l.zip m).filterMap f).Sublist l := by
  induction l generalizing m with
  | nil => simp
  | cons a l ih =>
    cases m with
    | nil => simp
    | cons b m =>
      rw [List.zip_cons_cons, List.filterMap_cons]
      cases hc : f (a, b) with
      | none => exact (ih m).cons a
      | some c =>
        rw [hf a b c hc]
        exact (ih m).cons_cons a

theorem filteredDirectPath_spec {i : ℕ} {tree : RatchetTree} {path : List ℤ}
    (h : filteredDirectPath i tree = .ok path) :
    path.Nodup ∧ ∀ p ∈ path, 0 ≤ p ∧ p < tree.length := by
  obtain ⟨cp, -, h⟩ := bind_eq_ok.mp h
  obtain ⟨dp, hdp, h⟩ := bind_eq_ok.mp h
  obtain ⟨resolutions, -, h⟩ := bind_eq_ok.mp h
  obtain rfl := Except.ok.inj h
  obtain ⟨hnodup, hrange⟩ := directPath_spec hdp
  have hsub := sublist_filterMap_zip (f := fun x : ℤ × List ℤ =>
      if x.2.length ≠ 0 then some x.1 else none) (fun a b c hc => by
        split_ifs at hc
        exact (Option.some.inj hc).symm) dp resolutions
  exact ⟨(List.nodup_cons.mp hnodup).2.sublist hsub, fun p hp => hrange p (hsub.subset hp)⟩

/-! ## Paths -/

theorem nodeAt_setNode_self {tree : RatchetTree} {i : ℤ} (h0 : 0 ≤ i) (hlt : i < tree.length)
    (v : Option Node) : nodeAt (setNode tree i v) i = v := by
  have hlt' : i.toNat < tree.length := by omega
  simp [nodeAt, setNode, h0.not_gt, hlt']

theorem nodeAt_setNode_of_ne {tree : RatchetTree} {i j : ℤ} (hi : 0 ≤ i) (hj : 0 ≤ j) (h : i ≠ j)
    (v : Option Node) : nodeAt (setNode tree i v) j = nodeAt tree j := by
  have hne : i.toNat ≠ j.toNat := by omega
  simp [nodeAt, setNode, hi.not_gt, hj.not_gt, hne]

theorem writePathNode_eq_ok {h : Hash} {c c' : RatchetTree} {i : ℤ} {node : UpdatePathNode}
    (hw : writePathNode h c i node = .ok c') : ∃ parent : ParentNode,
      parent.hpkePublicKey = node.hpkePublicKey ∧ c' = setNode c i (some (.parent parent)) := by
  obtain ⟨⟨parentHash, _⟩, -, hw⟩ := bind_eq_ok.mp hw
  exact ⟨_, rfl, (Except.ok.inj hw).symm⟩

/-- Keys written to places of their own are all in the tree, beside what was there. -/
theorem keysOf_writePathNodes {h : Hash} {writes : List (ℤ × UpdatePathNode)} {c c' : RatchetTree}
    (hw : writes.foldlM (fun copy w => writePathNode h copy w.1 w.2) c = .ok c')
    (hnodup : (writes.map Prod.fst).Nodup) (hrange : ∀ w ∈ writes, 0 ≤ w.1 ∧ w.1 < c.length) :
    keysOf c' ⊆ keysOf c ∪ {key | ∃ w ∈ writes, w.2.hpkePublicKey = key} ∧
      (∀ w ∈ writes, w.2.hpkePublicKey ∈ keysOf c') ∧
      ∀ j, 0 ≤ j → j ∉ writes.map Prod.fst → nodeAt c' j = nodeAt c j := by
  induction writes generalizing c with
  | nil =>
    obtain rfl := Except.ok.inj hw
    simp
  | cons w writes ih =>
    rw [List.foldlM_cons] at hw
    obtain ⟨mid, hmid, hw⟩ := bind_eq_ok.mp hw
    obtain ⟨parent, hkey, rfl⟩ := writePathNode_eq_ok hmid
    rw [List.map_cons, List.nodup_cons] at hnodup
    rw [List.forall_mem_cons] at hrange
    obtain ⟨hsub, hall, hother⟩ := ih hw hnodup.2 (by simpa [setNode, hrange.1.1.not_gt] using hrange.2)
    have hhead : nodeAt c' w.1 = some (.parent parent) := by
      rw [hother w.1 hrange.1.1 hnodup.1, nodeAt_setNode_self hrange.1.1 hrange.1.2]
    refine ⟨?_, ?_, ?_⟩
    · refine hsub.trans (Set.union_subset ((keysOf_setNode _ _ _).trans ?_) ?_)
      · refine Set.insert_subset (.inr ⟨w, List.mem_cons_self .., hkey.symm⟩) Set.subset_union_left
      · rintro key ⟨w', hw', rfl⟩
        exact .inr ⟨w', List.mem_cons_of_mem _ hw', rfl⟩
    · rw [List.forall_mem_cons, ← hkey]
      exact ⟨mem_keysOf (mem_of_nodeAt hhead), hall⟩
    · intro j hj hnot
      rw [List.map_cons, List.mem_cons, not_or] at hnot
      rw [hother j hj hnot.2, nodeAt_setNode_of_ne hrange.1.1 hj (Ne.symm hnot.1)]

/-- A path that is applied brings in its leaf's key and all of its nodes' keys. -/
theorem keysOf_applyUpdatePath {t t' : RatchetTree} {i : ℕ} {path : UpdatePath} {h : Hash}
    {isExternal : Bool} (happly : applyUpdatePath t i path h isExternal = .ok t') :
    keysOf t' ⊆ insert path.leafNode.leaf.hpkePublicKey (keysOf t) ∪
        {key | ∃ node ∈ path.nodes, node.hpkePublicKey = key} ∧
      ∀ node ∈ path.nodes, node.hpkePublicKey ∈ keysOf t' := by
  obtain ⟨_, -, happly⟩ := bind_eq_ok.mp happly
  obtain ⟨fdp, hfdp, happly⟩ := bind_eq_ok.mp happly
  obtain ⟨hnodup, hrange⟩ := filteredDirectPath_spec hfdp
  dsimp only at happly
  split_ifs at happly with hlen
  · cases happly
  · obtain ⟨copy, hcopy, happly⟩ := bind_eq_ok.mp happly
    obtain ⟨⟨leafParentHash, _⟩, -, happly⟩ := bind_eq_ok.mp happly
    dsimp only at happly
    split_ifs at happly
    · cases happly
    · obtain rfl := Except.ok.inj happly
      have hlen' : fdp.reverse.length = path.nodes.reverse.length := (not_not.mp hlen).symm
      have hfst : (fdp.reverse.zip path.nodes.reverse).map Prod.fst = fdp.reverse :=
        List.map_fst_zip hlen'.le
      have hsnd : (fdp.reverse.zip path.nodes.reverse).map Prod.snd = path.nodes.reverse :=
        List.map_snd_zip hlen'.ge
      have hcount : (setNode t (leafToNodeIndex i) (some (.leaf path.leafNode.leaf))).length =
        t.length := length_setNode ..
      obtain ⟨hsub, hall, -⟩ := keysOf_writePathNodes hcopy
        (by rw [hfst]; exact List.nodup_reverse.mpr hnodup) (by
          intro w hw
          rw [hcount]
          have hmem := List.mem_map_of_mem (f := Prod.fst) hw
          rw [hfst, List.mem_reverse] at hmem
          exact hrange w.1 hmem)
      have hnodes (node : UpdatePathNode) : node ∈ path.nodes ↔
          ∃ w ∈ fdp.reverse.zip path.nodes.reverse, w.2 = node := by
        have hmem : node ∈ path.nodes ↔
            node ∈ (fdp.reverse.zip path.nodes.reverse).map Prod.snd := by
          rw [hsnd, List.mem_reverse]
        rw [hmem, List.mem_map]
      constructor
      · refine hsub.trans (Set.union_subset_union (keysOf_setNode _ _ _) ?_)
        rintro key ⟨w, hw, rfl⟩
        exact ⟨w.2, (hnodes w.2).mpr ⟨w, hw, rfl⟩, rfl⟩
      · intro node hnode
        obtain ⟨w, hw, rfl⟩ := (hnodes node).mp hnode
        exact hall w hw

end WebcryptoMls
