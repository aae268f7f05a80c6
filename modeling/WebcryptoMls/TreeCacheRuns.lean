import WebcryptoMls.Joining
import WebcryptoMls.TreeCacheAgreement

/-!
# Operations on cached trees

Each operation on a tree someone holds returns what it returns where nothing is cached, and
leaves every array there was as it was. So does every operation after any others.
-/
namespace WebcryptoMls
namespace TreeCache
open HiddenState InOrder

section
variable {suiteOf : ℕ → CiphersuiteImpl} {held : Set TreeRef} {base heap : TreeHeap}
  {ref : TreeRef} {t : RatchetTree} {E : ℕ → ℕ → Prop} {h : ℕ}

/-! ## Derived trees -/

theorem Good.tracks (hbase : Good suiteOf held base) (hheld : ref ∈ held) :
    Tracks suiteOf held base ref (base.tree ref) (InTree (base.tree ref)) base where
  good := hbase
  kept := List.prefix_rfl
  alive := hbase.alive ref hheld
  tree := rfl
  within := hbase.inside ref hheld

theorem Good.sound (hbase : Good suiteOf held base) : Sound suiteOf held base base :=
  ⟨hbase, List.prefix_rfl⟩

/-- A new array that holds the tree. -/
structure Derived (suiteOf : ℕ → CiphersuiteImpl) (held : Set TreeRef) (base : TreeHeap)
    (t : RatchetTree) (ref : TreeRef) (heap : TreeHeap) : Prop
    extends Tracks suiteOf held base ref t (InTree t) heap where
  fresh : base.arrays.length ≤ ref

theorem Tracks.derived {i : ℕ} (hs : Tracks suiteOf held base ref t (Beside i t) heap)
    (hfresh : base.arrays.length ≤ ref) : Derived suiteOf held base t ref heap :=
  ⟨hs.mono fun _ _ hE => hE.2, hfresh⟩

theorem readTree_base {α β : Type} {f : RatchetTree → HeapM β} {a : Except MlsError α}
    {Q : α → β → TreeHeap → Prop}
    (h : Simulates (Sound suiteOf held base) (Eq base) (f (base.tree ref)) a Q) :
    Simulates (Sound suiteOf held base) (Eq base) (readTree ref >>= f) a Q :=
  .read (fun s hs => by rw [exec_readTree, hs]) h

/-- From here on the call works on a new array, for which nothing is cached. -/
theorem newTree_base {α β : Type} {t : RatchetTree} {f : TreeRef → HeapM β} {a : Except MlsError α}
    {Q : α → β → TreeHeap → Prop} (hbase : Good suiteOf held base)
    (h : Simulates (Sound suiteOf held base)
      (Tracks suiteOf held base base.arrays.length t fun _ _ => False) (f base.arrays.length) a Q) :
    Simulates (Sound suiteOf held base) (Eq base) (newTree t >>= f) a Q := by
  rintro s rfl
  rw [exec_bind_ok (exec_newTree t base)]
  refine h _ ⟨⟨hbase.withNew t, List.prefix_append ..⟩, ?_, tree_withNew_self t, fun e he => ?_⟩
  · rw [length_withNew]
    exact Nat.lt_succ_self _
  · rw [treeHashes_withNew, if_pos rfl] at he
    cases he

theorem addLeafNode_simulates (hbase : Good suiteOf held base) (hheld : ref ∈ held)
    (hw : Walkable (base.tree ref).length) (leafNode : LeafNode) :
    Simulates (Sound suiteOf held base) (Eq base) (addLeafNode ref leafNode)
      (WebcryptoMls.addLeafNode (base.tree ref) leafNode)
      fun x b s => b.2 = x.2 ∧ Derived suiteOf held base x.1 b.1 s := by
  unfold addLeafNode
  refine readTree_base (.plain_then (fun s hs => hs ▸ hbase.sound) fun x hx => ?_)
  obtain ⟨copy, nodeIndex⟩ := x
  refine newTree_base hbase ?_
  cases hblank : findBlankLeafNodeIndex (base.tree ref) with
  | none => exact .pure fun s hs => ⟨rfl, hs.mono fun _ _ hf => hf.elim, le_rfl⟩
  | some blankLeaf =>
    obtain ⟨i, rfl, hdiff, path, hpath⟩ := differsOn_addLeafNode hw hblank hx
    dsimp only
    rw [nodeToLeafIndex_coord]
    refine .read (fun s _ => rfl) ?_
    refine .bind_left (carryTreeHashes_simulates hbase hheld hw le_rfl (fun _ => hdiff) hpath)
      fun _ => .pure fun s hs => ⟨rfl, hs.derived le_rfl⟩

theorem updateLeafNode_simulates (hbase : Good suiteOf held base) (hheld : ref ∈ held)
    (hw : Walkable (base.tree ref).length) (leafNode : LeafNode) (leafIndex : ℕ) :
    Simulates (Sound suiteOf held base) (Eq base) (updateLeafNode ref leafNode leafIndex)
      (WebcryptoMls.updateLeafNode (base.tree ref) leafNode leafIndex)
      (Derived suiteOf held base) := by
  unfold updateLeafNode
  refine readTree_base (.plain_then (fun s hs => hs ▸ hbase.sound) fun copy hcopy => ?_)
  obtain ⟨hdiff, path, hpath⟩ := differsOn_updateLeafNode hw hcopy
  refine newTree_base hbase ?_
  exact .bind_left (carryTreeHashes_simulates hbase hheld hw le_rfl (fun _ => hdiff) hpath)
    fun _ => .pure fun s hs => hs.derived le_rfl

theorem removeLeafNode_simulates (hbase : Good suiteOf held base) (hheld : ref ∈ held)
    (hw : Walkable (base.tree ref).length) (removedLeafIndex : ℕ) :
    Simulates (Sound suiteOf held base) (Eq base) (removeLeafNode ref removedLeafIndex)
      (WebcryptoMls.removeLeafNode (base.tree ref) removedLeafIndex)
      (Derived suiteOf held base) := by
  unfold removeLeafNode
  refine readTree_base (.plain_then (fun s hs => hs ▸ hbase.sound) fun copy hcopy => ?_)
  obtain ⟨hdiff, path, hpath⟩ := differsOn_removeLeafNode hw hcopy
  refine newTree_base hbase ?_
  exact .bind_left (carryTreeHashes_simulates hbase hheld hw le_rfl hdiff hpath)
    fun _ => .pure fun s hs => hs.derived le_rfl

theorem treeHashRoot_simulates (hw : Walkable t.length) :
    Simulates (Sound suiteOf held base) (Tracks suiteOf held base ref t (InTree t))
      (treeHashRoot suiteOf ref h) (WebcryptoMls.treeHashRoot t (suiteOf h).hash)
      fun x b s => b = x ∧ Tracks suiteOf held base ref t (InTree t) s := by
  unfold treeHashRoot WebcryptoMls.treeHashRoot
  refine readTree_tracks ?_
  rw [hw.rootFromNodeWidth_eq]
  have hroot : index (rootLevel t.length) 0 < size (rootLevel t.length) :=
    InOrder.index_lt_size.mpr ⟨le_rfl, Nat.two_pow_pos _⟩
  exact treeHash_simulates (fun _ _ hE => hE) (lt_of_lt_of_le hroot hw.size_le)
    fun k' j' hb => hb.index_lt_size hroot

/-! ## Verification -/

/-- The parent hashes that are kept are those of the nodes. -/
def ValidParentHashes (t : RatchetTree) (hash : Hash) (parentHashes : ParentHashes) : Prop :=
  ∀ n r, parentHashes n = some r → WebcryptoMls.calculateParentHash t n hash = .ok r

/-- The coverage is counted alike, and the parent hashes that are kept are right. -/
structure Counts (suiteOf : ℕ → CiphersuiteImpl) (held : Set TreeRef) (base : TreeHeap)
    (ref : TreeRef) (t : RatchetTree) (h : ℕ) (coverage : Coverage)
    (state : Coverage × ParentHashes) (heap : TreeHeap) : Prop
    extends Tracks suiteOf held base ref t (InTree t) heap where
  coverage : state.1 = coverage
  valid : ValidParentHashes t (suiteOf h).hash state.2

theorem memoizedParentHash_simulates {i k : ℕ} {parentHashes : ParentHashes}
    (hw : Walkable t.length) (hi : i < 2 ^ rootLevel t.length) (hk : k ≤ rootLevel t.length)
    (hvalid : ValidParentHashes t (suiteOf h).hash parentHashes) :
    Simulates (Sound suiteOf held base) (Tracks suiteOf held base ref t (InTree t))
      (memoizedParentHash suiteOf ref h parentHashes (coord k (i / 2 ^ k)))
      (WebcryptoMls.calculateParentHash t (coord k (i / 2 ^ k)) (suiteOf h).hash)
      fun x b s => b.1 = x ∧ ValidParentHashes t (suiteOf h).hash b.2 ∧
        Tracks suiteOf held base ref t (InTree t) s := by
  unfold memoizedParentHash
  cases hkept : parentHashes (coord k (i / 2 ^ k)) with
  | some result =>
    rw [hvalid _ _ hkept]
    exact .pure fun s hs => ⟨rfl, hvalid, hs⟩
  | none =>
    have hcalc : Simulates (Sound suiteOf held base) (Tracks suiteOf held base ref t (InTree t))
        (calculateParentHash suiteOf ref (coord k (i / 2 ^ k)) h)
        (WebcryptoMls.calculateParentHash t (coord k (i / 2 ^ k)) (suiteOf h).hash)
        fun x b s => b = x ∧ Tracks suiteOf held base ref t (InTree t) s :=
      calculateParentHash_simulates hw (fun _ _ hE => hE) hi hk fun m hm hmd k' j' hb =>
        (beside_sibling hi m hm hmd k' j' hb).2
    refine hcalc.bind_then fun x b hx s hs => ?_
    obtain ⟨rfl, hs⟩ := hs
    refine Simulates.pure (P := Tracks suiteOf held base ref t (InTree t))
      (fun s hs => ⟨rfl, fun n r hn => ?_, hs⟩) s hs
    dsimp only at hn
    split_ifs at hn with hnk
    · rw [hnk, hx, Option.some.inj hn]
    · exact hvalid n r hn

theorem coverageLoop_simulates (hw : Walkable t.length) {fuel : ℕ} :
    ∀ {i k : ℕ} {coverage : Coverage} {state : Coverage × ParentHashes},
      i < 2 ^ rootLevel t.length → k ≤ rootLevel t.length →
      Simulates (Sound suiteOf held base) (Counts suiteOf held base ref t h coverage state)
        (coverageLoop suiteOf ref h (coord (rootLevel t.length) 0) fuel (coord k (i / 2 ^ k)) state)
        (WebcryptoMls.coverageLoop t (suiteOf h).hash (coord (rootLevel t.length) 0) fuel
          (coord k (i / 2 ^ k)) coverage)
        (Counts suiteOf held base ref t h) := by
  induction fuel with
  | zero =>
    intro i k coverage state hi hk
    exact .throw fun s hs => hs.toSound
  | succ fuel ih =>
    intro i k coverage state hi hk s hs
    obtain ⟨counted, parentHashes⟩ := state
    obtain rfl : counted = coverage := hs.coverage
    have hkeep : ∀ s, Tracks suiteOf held base ref t (InTree t) s → Sound suiteOf held base s :=
      fun s hs => hs.toSound
    have hdone : ∀ parentHashes, ValidParentHashes t (suiteOf h).hash parentHashes →
        Simulates (Sound suiteOf held base) (Tracks suiteOf held base ref t (InTree t))
          (pure (counted, parentHashes)) (.ok counted : Except MlsError Coverage)
          (Counts suiteOf held base ref t h) :=
      fun _ hvalid => .pure fun s hs => ⟨hs, rfl, hvalid⟩
    have hnext : ∀ {m coverage parentHashes}, m < rootLevel t.length →
        ValidParentHashes t (suiteOf h).hash parentHashes →
        Simulates (Sound suiteOf held base) (Tracks suiteOf held base ref t (InTree t))
          (coverageLoop suiteOf ref h (coord (rootLevel t.length) 0) fuel
            (coord (m + 1) (i / 2 ^ (m + 1))) (coverage, parentHashes))
          (WebcryptoMls.coverageLoop t (suiteOf h).hash (coord (rootLevel t.length) 0) fuel
            (coord (m + 1) (i / 2 ^ (m + 1))) coverage) (Counts suiteOf held base ref t h) :=
      fun hm hvalid s hs => ih hi hm s ⟨hs, rfl, hvalid⟩
    refine (show Simulates _ (Tracks suiteOf held base ref t (InTree t)) _ _ _ from ?_) s hs.toTracks
    unfold coverageLoop WebcryptoMls.coverageLoop
    refine .ite (fun _ => hdone _ hs.valid) fun hroot => readTree_tracks ?_
    have hkd : k < rootLevel t.length := by
      refine lt_of_le_of_ne hk fun heq => hroot ?_
      rw [heq, div_two_pow_eq_zero hi]
    cases nodeAt t (coord k (i / 2 ^ k)) with
    | none =>
      refine .plain_bind hkeep fun a ha => ?_
      obtain ⟨m, hkm, hm, rfl⟩ :=
        hw.findFirstNonBlankAncestor_eq_ok hkd (div_two_pow_lt hk hi) ha
      rw [div_two_pow_sub (by omega)]
      exact hnext hm hs.valid
    | some currentNode =>
      refine (memoizedParentHash_simulates hw hi hk hs.valid).bind fun x b hx s hb => ?_
      obtain ⟨rfl, hvalid, hb⟩ := hb
      obtain ⟨⟨parentHash, parentHashNodeIndex⟩, parentHashes⟩ := b
      refine (show Simulates _ (Tracks suiteOf held base ref t (InTree t)) _ _ _ from ?_) s hb
      cases parentHashNodeIndex with
      | none => exact .throw hkeep
      | some a =>
        obtain ⟨m, hkm, hm, rfl⟩ := calculateParentHash_ancestor hw hk hi hx
        refine .plain_bind hkeep fun cIndex _ => ?_
        cases getParentHash currentNode with
        | none => exact hdone _ hvalid
        | some expectedParentHash =>
          refine .ite (fun _ => .plain_bind hkeep fun criterion _ => ?_) fun _ => hdone _ hvalid
          exact .ite (fun _ => hnext hm hvalid) fun _ => hdone _ hvalid

theorem parentHashCoverage_simulates (hw : Walkable t.length) :
    Simulates (Sound suiteOf held base) (Tracks suiteOf held base ref t (InTree t))
      (parentHashCoverage suiteOf ref h)
      (WebcryptoMls.parentHashCoverage t (suiteOf h).hash)
      fun x b s => b = x ∧ Tracks suiteOf held base ref t (InTree t) s := by
  unfold parentHashCoverage WebcryptoMls.parentHashCoverage
  refine readTree_tracks ?_
  rw [hw.root_eq]
  refine .bind_then (R := Counts suiteOf held base ref t h) ?_ fun x b _ => ?_
  · refine .conseq (P := Counts suiteOf held base ref t h (fun _ => 0) (fun _ => 0, fun _ => none))
      (.foldlM ?_) (fun s hs => ⟨hs, rfl, fun n r hn => (by cases hn)⟩) fun _ _ _ _ hs => hs
    rintro ⟨node, n⟩ hmem coverage state
    refine .ite (fun _ => .pure fun s hs => hs) fun hleaf => ?_
    rw [List.mem_zipIdx_iff_getElem?] at hmem
    obtain ⟨k, i, rfl⟩ := InOrder.exists_index n
    have hcoord : ((index k i : ℕ) : ℤ) = coord k i := rfl
    have hk : k = 0 := by
      rw [Bool.or_eq_true, not_or, hcoord, isLeaf_coord] at hleaf
      simpa using hleaf.2
    subst hk
    have hi : i < 2 ^ rootLevel t.length := by
      have hlt := (List.getElem?_eq_some_iff.mp hmem).1
      exact InOrder.leaf_lt_size.mp (lt_of_lt_of_le hlt (Walkable.le_size t.length))
    have hloop : Simulates (Sound suiteOf held base)
        (Counts suiteOf held base ref t h coverage state)
        (coverageLoop suiteOf ref h (coord (rootLevel t.length) 0) 33 (coord 0 (i / 2 ^ 0)) state)
        (WebcryptoMls.coverageLoop t (suiteOf h).hash (coord (rootLevel t.length) 0) 33
          (coord 0 (i / 2 ^ 0)) coverage)
        (Counts suiteOf held base ref t h) := coverageLoop_simulates hw hi (Nat.zero_le _)
    rwa [pow_zero, Nat.div_one] at hloop
  · exact .pure fun s hs => ⟨hs.coverage, hs.toTracks⟩

theorem verifyParentHashes_simulates (hw : Walkable t.length) :
    Simulates (Sound suiteOf held base) (Tracks suiteOf held base ref t (InTree t))
      (verifyParentHashes suiteOf ref h) (WebcryptoMls.verifyParentHashes t (suiteOf h).hash)
      fun x b s => b = x ∧ Tracks suiteOf held base ref t (InTree t) s := by
  unfold verifyParentHashes WebcryptoMls.verifyParentHashes
  refine readTree_tracks (.ite (fun _ => .pure fun s hs => ⟨rfl, hs⟩) fun _ => ?_)
  exact .bind_same (parentHashCoverage_simulates hw) fun coverage _ => .pure fun s hs => ⟨rfl, hs⟩

/-! ## Update paths -/

/-- The new array holds the tree whose path is being written. -/
structure Writing (suiteOf : ℕ → CiphersuiteImpl) (held : Set TreeRef) (base : TreeHeap)
    (ref : TreeRef) (i n : ℕ) (t : RatchetTree) (_ : PUnit) (heap : TreeHeap) : Prop
    extends Tracks suiteOf held base ref t (Beside i t) heap where
  length : t.length = n

/-- The parent hash of a node that is being written comes of what lies beside the path. -/
theorem pathParentHash_simulates {i k : ℕ} (hw : Walkable t.length)
    (hi : i < 2 ^ rootLevel t.length) (hk : k ≤ rootLevel t.length) :
    Simulates (Sound suiteOf held base) (Tracks suiteOf held base ref t (Beside i t))
      (calculateParentHash suiteOf ref (coord k (i / 2 ^ k)) h)
      (WebcryptoMls.calculateParentHash t (coord k (i / 2 ^ k)) (suiteOf h).hash)
      fun x b s => b = x ∧ Tracks suiteOf held base ref t (Beside i t) s :=
  calculateParentHash_simulates hw (fun _ _ hE => hE.2) hi hk (beside_sibling hi)

theorem leafParentHash_simulates {i : ℕ} (hw : Walkable t.length)
    (hi : i < 2 ^ rootLevel t.length) :
    Simulates (Sound suiteOf held base) (Tracks suiteOf held base ref t (Beside i t))
      (calculateParentHash suiteOf ref (coord 0 i) h)
      (WebcryptoMls.calculateParentHash t (coord 0 i) (suiteOf h).hash)
      fun x b s => b = x ∧ Tracks suiteOf held base ref t (Beside i t) s := by
  have hcalc : Simulates (Sound suiteOf held base) (Tracks suiteOf held base ref t (Beside i t))
      (calculateParentHash suiteOf ref (coord 0 (i / 2 ^ 0)) h)
      (WebcryptoMls.calculateParentHash t (coord 0 (i / 2 ^ 0)) (suiteOf h).hash)
      fun x b s => b = x ∧ Tracks suiteOf held base ref t (Beside i t) s :=
    pathParentHash_simulates hw hi (Nat.zero_le _)
  rwa [pow_zero, Nat.div_one] at hcalc

theorem writeStep_simulates {i n : ℕ} {m : ℕ} {v : Option Node} (hbase : Good suiteOf held base)
    (hfresh : base.arrays.length ≤ ref) (hlen : t.length = n) :
    Simulates (Sound suiteOf held base) (Tracks suiteOf held base ref t (Beside i t))
      (writeTree ref (setNode t (coord m (i / 2 ^ m)) v))
      (.ok (setNode t (coord m (i / 2 ^ m)) v) : Except MlsError RatchetTree)
      (Writing suiteOf held base ref i n) := by
  intro s hs
  obtain ⟨hok, -⟩ := writeTree_simulates hbase hfresh (DiffersOn.setNode (k := m) v t) s hs
  obtain ⟨b, s', hexec, hs'⟩ := hok ⟨⟩ rfl
  refine ⟨fun x hx => ?_, fun e he => (by cases he)⟩
  rw [← Except.ok.inj hx]
  exact ⟨b, s', hexec, hs', (length_setNode ..).trans hlen⟩

theorem insertParentHash_simulates {i n : ℕ} {nodeIndex : ℤ} (hbase : Good suiteOf held base)
    (hfresh : base.arrays.length ≤ ref) (hw : Walkable n) (hi : i < 2 ^ rootLevel n)
    (hmem : nodeIndex ∈ leafPath (rootLevel n) i) (x : RatchetTree) (b : PUnit) :
    Simulates (Sound suiteOf held base) (Writing suiteOf held base ref i n x b)
      (insertParentHash suiteOf h ref nodeIndex)
      (WebcryptoMls.insertParentHash (suiteOf h).hash x nodeIndex)
      (Writing suiteOf held base ref i n) := by
  intro s hs
  obtain ⟨m, hm, rfl⟩ := List.mem_map.mp hmem
  have hlen := hs.length
  refine (show Simulates _ (Tracks suiteOf held base ref x (Beside i x)) _ _ _ from ?_) s hs.toTracks
  unfold insertParentHash WebcryptoMls.insertParentHash
  refine .bind_same (pathParentHash_simulates (hlen ▸ hw) (hlen ▸ hi)
    (hlen ▸ List.mem_range.mp hm)) fun r _ => readTree_tracks ?_
  obtain ⟨parentHash, a⟩ := r
  cases nodeAt x (coord (m + 1) (i / 2 ^ (m + 1))) with
  | none => exact .throw fun s hs => hs.toSound
  | some node =>
    cases node with
    | leaf l => exact .throw fun s hs => hs.toSound
    | parent p => exact writeStep_simulates hbase hfresh hlen

theorem writePathNode_simulates {i n : ℕ} {nodeIndex : ℤ} (hbase : Good suiteOf held base)
    (hfresh : base.arrays.length ≤ ref) (hw : Walkable n) (hi : i < 2 ^ rootLevel n)
    (hmem : nodeIndex ∈ leafPath (rootLevel n) i) (node : UpdatePathNode) (x : RatchetTree)
    (b : PUnit) :
    Simulates (Sound suiteOf held base) (Writing suiteOf held base ref i n x b)
      (writePathNode suiteOf h ref nodeIndex node)
      (WebcryptoMls.writePathNode (suiteOf h).hash x nodeIndex node)
      (Writing suiteOf held base ref i n) := by
  intro s hs
  obtain ⟨m, hm, rfl⟩ := List.mem_map.mp hmem
  have hlen := hs.length
  refine (show Simulates _ (Tracks suiteOf held base ref x (Beside i x)) _ _ _ from ?_) s hs.toTracks
  unfold writePathNode WebcryptoMls.writePathNode
  refine .bind_same (pathParentHash_simulates (hlen ▸ hw) (hlen ▸ hi)
    (hlen ▸ List.mem_range.mp hm)) fun r _ => readTree_tracks ?_
  exact writeStep_simulates hbase hfresh hlen

/-- A created path, with the array its tree is in. -/
theorem createUpdatePath_simulates (hbase : Good suiteOf held base) (hheld : ref ∈ held)
    (hw : Walkable (base.tree ref).length) (senderLeafIndex : ℕ) (groupContext : GroupContext)
    (signaturePrivateKey : (suiteOf h).signature.SignatureSecretKey) (coins : PathCoins)
    (excludeNodes : List ℤ) (patch : ResolvedLeafNodePatch (suiteOf h).signature) :
    Simulates (Sound suiteOf held base) (Eq base)
      (createUpdatePath suiteOf ref senderLeafIndex groupContext h signaturePrivateKey coins
        excludeNodes patch)
      (WebcryptoMls.createUpdatePath (base.tree ref) senderLeafIndex groupContext (suiteOf h)
        signaturePrivateKey coins excludeNodes patch)
      fun x b s => b.2 = x ∧ Derived suiteOf held base x.tree b.1 s := by
  have hbegin : ∀ s, base = s → Sound suiteOf held base s := fun s hs => hs ▸ hbase.sound
  unfold createUpdatePath WebcryptoMls.createUpdatePath
  refine readTree_base ?_
  rw [leafToNodeIndex_eq]
  dsimp only
  cases nodeAt (base.tree ref) (coord 0 senderLeafIndex) with
  | none => exact .throw hbegin
  | some node =>
  cases node with
  | parent p => exact .throw hbegin
  | leaf originalLeafNode =>
    refine .plain_bind hbegin fun leafNodeSecret _ => ?_
    refine .plain_bind hbegin fun leafKeypair _ => ?_
    refine .plain_bind hbegin fun fdp hfdp => ?_
    obtain ⟨hi, ⟨path, hpath⟩, hmem⟩ := filteredDirectPathAndCopathResolution_pathOf hw hfdp
    generalize hfiltered : (fdp.map fun n =>
      ({ n with resolution := filterNewLeaves n.resolution excludeNodes } : PathNode)) = filtered
    have hnodes : ∀ n ∈ filtered.map PathNode.nodeIndex,
        n ∈ leafPath (rootLevel (base.tree ref).length) senderLeafIndex := by
      rw [← hfiltered, List.map_map]
      exact hmem
    refine newTree_base hbase ?_
    refine .bind_left (carryTreeHashes_simulates hbase hheld hw le_rfl
      (fun _ => DiffersOn.refl senderLeafIndex _) hpath) fun _ => ?_
    refine .plain_bind (fun s hs => hs.toSound) fun r hr => ?_
    obtain ⟨tree, ps⟩ := r
    have hdiff := differsOn_applyInitialTreeUpdate hnodes hr
    refine .bind_left (writeTree_simulates hbase le_rfl hdiff) fun _ => ?_
    have hinsert := Simulates.foldlM
      (I := Sound suiteOf held base)
      (J := Writing suiteOf held base base.arrays.length senderLeafIndex (base.tree ref).length)
      (f := fun _ nodeIndex => insertParentHash suiteOf h base.arrays.length nodeIndex)
      (g := WebcryptoMls.insertParentHash (suiteOf h).hash)
      (l := filtered.reverse.map PathNode.nodeIndex) (x := tree) (b := ⟨⟩) fun n hn x b =>
        insertParentHash_simulates hbase le_rfl hw hi
          (hnodes n (by rwa [List.map_reverse, List.mem_reverse] at hn)) x b
    refine (hinsert.conseq (fun s hs => ⟨hs, hdiff.length⟩) fun _ _ _ _ hs => hs).bind
      fun tree b _ s hs => ?_
    have hlen := hs.length
    have hw' : Walkable tree.length := hlen ▸ hw
    refine (show Simulates _ (Tracks suiteOf held base base.arrays.length tree
      (Beside senderLeafIndex tree)) _ _ _ from ?_) s hs.toTracks
    refine .bind_same (leafParentHash_simulates hw' (hlen ▸ hi)) fun r _ => ?_
    obtain ⟨leafParentHash, a⟩ := r
    dsimp only
    refine .plain_bind (fun s hs => hs.toSound) fun hpkePublicKey _ => ?_
    refine .plain_bind (fun s hs => hs.toSound) fun updatedLeafNode _ => ?_
    refine readTree_tracks ?_
    refine .bind_left (writeTree_simulates hbase le_rfl (DiffersOn.setNode_leaf _ tree)) fun _ => ?_
    have hwritten : Walkable (setNode tree (coord 0 senderLeafIndex)
        (some (.leaf updatedLeafNode.leaf))).length := by
      rw [length_setNode]
      exact hw'
    generalize setNode tree (coord 0 senderLeafIndex) (some (.leaf updatedLeafNode.leaf)) = written
      at hwritten ⊢
    refine .bind_same ((treeHashRoot_simulates hwritten).conseq
      (fun s hs => hs.mono fun _ _ hE => hE.2) fun _ _ _ _ hs => hs) fun updatedTreeHash _ => ?_
    exact .plain_bind (fun s hs => hs.toSound) fun nodes _ => .pure fun s hs => ⟨rfl, hs, le_rfl⟩

theorem applyUpdatePath_simulates (hbase : Good suiteOf held base) (hheld : ref ∈ held)
    (hw : Walkable (base.tree ref).length) (senderLeafIndex : ℕ) (path : UpdatePath)
    (isExternal : Bool) :
    Simulates (Sound suiteOf held base) (Eq base)
      (applyUpdatePath suiteOf ref senderLeafIndex path h isExternal)
      (WebcryptoMls.applyUpdatePath (base.tree ref) senderLeafIndex path (suiteOf h).hash isExternal)
      (Derived suiteOf held base) := by
  unfold applyUpdatePath WebcryptoMls.applyUpdatePath
  refine readTree_base (.plain_bind (fun s hs => hs ▸ hbase.sound) fun _ _ => ?_)
  refine newTree_base hbase ?_
  rw [leafToNodeIndex_eq]
  have hwrite : DiffersOn senderLeafIndex (base.tree ref) (setNode (base.tree ref)
    (coord 0 senderLeafIndex) (some (.leaf path.leafNode.leaf))) := .setNode_leaf _ _
  cases hdp : directPath (coord 0 senderLeafIndex) (leafWidth (base.tree ref).length) with
  | error e =>
    rw [filteredDirectPath_error hdp]
    intro s hs
    refine ⟨fun x hx => (by cases hx), fun e' he => ?_⟩
    obtain rfl : e = e' := Except.error.inj he
    have htree : s.tree ref = base.tree ref := tree_of_kept hs.kept (hbase.alive ref hheld)
    obtain hcarry | hcarry := exec_carryTreeHashes_error s ref base.arrays.length senderLeafIndex
      (by rw [htree, hs.tree]) (by rw [htree, hdp])
    · exact ⟨s, exec_bind_error hcarry, hs.toSound⟩
    · rw [exec_bind_ok hcarry]
      obtain ⟨b, s', hexec, hs'⟩ := (writeTree_simulates hbase le_rfl hwrite s
        (hs.mono fun _ _ hf => hf.elim)).1 ⟨⟩ rfl
      refine ⟨s', ?_, hs'.toSound⟩
      rw [exec_bind_ok hexec]
      rfl
  | ok dp =>
    refine .bind_left (carryTreeHashes_simulates hbase hheld hw le_rfl
      (fun _ => DiffersOn.refl senderLeafIndex _) hdp) fun _ => ?_
    refine .bind_left (writeTree_simulates hbase le_rfl hwrite) fun _ => ?_
    refine .plain_bind (fun s hs => hs.toSound) fun fdp hfdp => ?_
    obtain ⟨hi, -, hmem⟩ := filteredDirectPath_pathOf hw hfdp
    refine .ite (fun _ => .throw fun s hs => hs.toSound) fun _ => ?_
    have hloop := Simulates.foldlM
      (I := Sound suiteOf held base)
      (J := Writing suiteOf held base base.arrays.length senderLeafIndex (base.tree ref).length)
      (f := fun _ (c : ℤ × UpdatePathNode) => writePathNode suiteOf h base.arrays.length c.1 c.2)
      (g := fun x c => WebcryptoMls.writePathNode (suiteOf h).hash x c.1 c.2)
      (l := fdp.reverse.zip path.nodes.reverse) (x := setNode (base.tree ref)
        (coord 0 senderLeafIndex) (some (.leaf path.leafNode.leaf))) (b := ⟨⟩) fun c hc x b =>
          writePathNode_simulates hbase le_rfl hw hi
            (hmem c.1 (List.mem_reverse.mp (List.of_mem_zip hc).1)) c.2 x b
    refine (hloop.conseq (fun s hs => ⟨hs, hwrite.length⟩) fun _ _ _ _ hs => hs).bind
      fun copy b _ s hs => ?_
    have hlen := hs.length
    refine (show Simulates _ (Tracks suiteOf held base base.arrays.length copy
      (Beside senderLeafIndex copy)) _ _ _ from ?_) s hs.toTracks
    refine .bind_same (leafParentHash_simulates (hlen ▸ hw) (hlen ▸ hi)) fun r _ => ?_
    refine .ite (fun _ => .throw fun s hs => hs.toSound) fun _ => ?_
    exact .pure fun s hs => hs.derived le_rfl

end

/-! ## Runs -/

/-- The operations on a tree. -/
inductive TreeOp (suiteOf : ℕ → CiphersuiteImpl) where
  | treeHashRoot (h : ℕ)
  | verifyParentHashes (h : ℕ)
  | addLeafNode (leafNode : LeafNode)
  | updateLeafNode (leafNode : LeafNode) (leafIndex : ℕ)
  | removeLeafNode (removedLeafIndex : ℕ)
  | createUpdatePath (senderLeafIndex : ℕ) (groupContext : GroupContext) (h : ℕ)
      (signaturePrivateKey : (suiteOf h).signature.SignatureSecretKey) (coins : PathCoins)
      (excludeNodes : List ℤ) (patch : ResolvedLeafNodePatch (suiteOf h).signature)
  | applyUpdatePath (senderLeafIndex : ℕ) (path : UpdatePath) (h : ℕ) (isExternal : Bool)

namespace TreeOp
variable {suiteOf : ℕ → CiphersuiteImpl}

/-- What an operation returns beside a tree. -/
def Value : TreeOp suiteOf → Type
  | treeHashRoot _ => Bytes
  | verifyParentHashes _ => Bool
  | addLeafNode _ => ℤ
  | updateLeafNode _ _ => Unit
  | removeLeafNode _ => Unit
  | createUpdatePath _ _ h _ _ _ _ => CreatedPath (suiteOf h)
  | applyUpdatePath _ _ _ _ => Unit

/-- The operation on an array, with the cache. -/
def run (ref : TreeRef) : (op : TreeOp suiteOf) → HeapM (Option TreeRef × op.Value)
  | treeHashRoot h => do
    let hash ← TreeCache.treeHashRoot suiteOf ref h
    pure (none, hash)
  | verifyParentHashes h => do
    let verified ← TreeCache.verifyParentHashes suiteOf ref h
    pure (none, verified)
  | addLeafNode leafNode => do
    let (newRef, nodeIndex) ← TreeCache.addLeafNode ref leafNode
    pure (some newRef, nodeIndex)
  | updateLeafNode leafNode leafIndex => do
    let newRef ← TreeCache.updateLeafNode ref leafNode leafIndex
    pure (some newRef, ())
  | removeLeafNode removedLeafIndex => do
    let newRef ← TreeCache.removeLeafNode ref removedLeafIndex
    pure (some newRef, ())
  | createUpdatePath senderLeafIndex groupContext h signaturePrivateKey coins excludeNodes patch => do
    let (newRef, path) ← TreeCache.createUpdatePath suiteOf ref senderLeafIndex groupContext h
      signaturePrivateKey coins excludeNodes patch
    pure (some newRef, path)
  | applyUpdatePath senderLeafIndex path h isExternal => do
    let newRef ← TreeCache.applyUpdatePath suiteOf ref senderLeafIndex path h isExternal
    pure (some newRef, ())

/-- The operation on a tree for which nothing is cached. -/
def uncached (tree : RatchetTree) : (op : TreeOp suiteOf) →
    Except MlsError (Option RatchetTree × op.Value)
  | treeHashRoot h => do
    let hash ← WebcryptoMls.treeHashRoot tree (suiteOf h).hash
    pure (none, hash)
  | verifyParentHashes h => do
    let verified ← WebcryptoMls.verifyParentHashes tree (suiteOf h).hash
    pure (none, verified)
  | addLeafNode leafNode => do
    let (newTree, nodeIndex) ← WebcryptoMls.addLeafNode tree leafNode
    pure (some newTree, nodeIndex)
  | updateLeafNode leafNode leafIndex => do
    let newTree ← WebcryptoMls.updateLeafNode tree leafNode leafIndex
    pure (some newTree, ())
  | removeLeafNode removedLeafIndex => do
    let newTree ← WebcryptoMls.removeLeafNode tree removedLeafIndex
    pure (some newTree, ())
  | createUpdatePath senderLeafIndex groupContext h signaturePrivateKey coins excludeNodes patch => do
    let path ← WebcryptoMls.createUpdatePath tree senderLeafIndex groupContext (suiteOf h)
      signaturePrivateKey coins excludeNodes patch
    pure (some path.tree, path)
  | applyUpdatePath senderLeafIndex path h isExternal => do
    let newTree ← WebcryptoMls.applyUpdatePath tree senderLeafIndex path (suiteOf h).hash isExternal
    pure (some newTree, ())

/-- The array an operation hands out. -/
def derived (op : TreeOp suiteOf) (ref : TreeRef) (heap : TreeHeap) : Set TreeRef :=
  {newRef | ∃ value, (exec (op.run ref) heap).1 = .ok (some newRef, value)}

end TreeOp

/-- The heaps that runs of operations leave, with the arrays that were handed out. A tree comes
from outside, or an operation derives it from one that was handed out before. -/
inductive Reachable (suiteOf : ℕ → CiphersuiteImpl) : Set TreeRef → TreeHeap → Prop where
  | start : Reachable suiteOf ∅ { arrays := [], treeHashes := fun _ => none }
  | received {held : Set TreeRef} {heap : TreeHeap} (tree : RatchetTree)
      (h : Reachable suiteOf held heap) :
      Reachable suiteOf (insert heap.arrays.length held) (heap.withNew tree)
  | ran {held : Set TreeRef} {heap : TreeHeap} {ref : TreeRef} (op : TreeOp suiteOf)
      (h : Reachable suiteOf held heap) (hheld : ref ∈ held)
      (hw : Walkable (heap.tree ref).length) :
      Reachable suiteOf (held ∪ op.derived ref heap) (exec (op.run ref) heap).2

section
variable {suiteOf : ℕ → CiphersuiteImpl} {held : Set TreeRef} {base heap : TreeHeap}
  {ref : TreeRef} {t : RatchetTree}

/-- The value is the plain one, and so is the content of the array handed out. -/
structure Agrees (suiteOf : ℕ → CiphersuiteImpl) (held : Set TreeRef) (base : TreeHeap) {V : Type}
    (plain : Option RatchetTree × V) (cached : Option TreeRef × V) (heap : TreeHeap) : Prop
    extends Sound suiteOf held base heap where
  value : cached.2 = plain.2
  tree : cached.1.map heap.tree = plain.1
  derived : ∀ newRef, cached.1 = some newRef →
    ∃ t, Derived suiteOf held base t newRef heap

theorem Tracks.agrees {V : Type} {E : ℕ → ℕ → Prop} {v : V}
    (hs : Tracks suiteOf held base ref t E heap) :
    Agrees suiteOf held base (none, v) (none, v) heap :=
  ⟨hs.toSound, rfl, rfl, fun _ hc => (by cases hc)⟩

theorem Derived.agrees {V : Type} {v : V} (hs : Derived suiteOf held base t ref heap) :
    Agrees suiteOf held base (some t, v) (some ref, v) heap := by
  refine ⟨hs.toSound, rfl, congrArg some hs.tree, fun newRef hc => ⟨t, ?_⟩⟩
  rwa [← Option.some.inj hc]

/-- One operation. -/
theorem TreeOp.run_simulates (hbase : Good suiteOf held base) (hheld : ref ∈ held)
    (hw : Walkable (base.tree ref).length) (op : TreeOp suiteOf) :
    Simulates (Sound suiteOf held base) (Eq base) (op.run ref) (op.uncached (base.tree ref))
      (Agrees suiteOf held base) := by
  have hstart : ∀ s, base = s →
      Tracks suiteOf held base ref (base.tree ref) (InTree (base.tree ref)) s :=
    fun s hs => hs ▸ hbase.tracks hheld
  cases op with
  | treeHashRoot h =>
    exact .bind_same ((treeHashRoot_simulates hw).conseq hstart fun _ _ _ _ hs => hs)
      fun hash _ => .pure fun s hs => hs.agrees
  | verifyParentHashes h =>
    exact .bind_same ((verifyParentHashes_simulates hw).conseq hstart fun _ _ _ _ hs => hs)
      fun verified _ => .pure fun s hs => hs.agrees
  | addLeafNode leafNode =>
    refine (addLeafNode_simulates hbase hheld hw leafNode).bind fun x b _ => .pure fun s hs => ?_
    obtain ⟨heq, hs⟩ := hs
    rw [heq]
    exact hs.agrees
  | updateLeafNode leafNode leafIndex =>
    exact (updateLeafNode_simulates hbase hheld hw leafNode leafIndex).bind fun x b _ =>
      .pure fun s hs => hs.agrees
  | removeLeafNode removedLeafIndex =>
    exact (removeLeafNode_simulates hbase hheld hw removedLeafIndex).bind fun x b _ =>
      .pure fun s hs => hs.agrees
  | createUpdatePath senderLeafIndex groupContext h signaturePrivateKey coins excludeNodes patch =>
    refine (createUpdatePath_simulates hbase hheld hw senderLeafIndex groupContext
      signaturePrivateKey coins excludeNodes patch).bind fun x b _ => .pure fun s hs => ?_
    obtain ⟨heq, hs⟩ := hs
    rw [heq]
    exact hs.agrees
  | applyUpdatePath senderLeafIndex path h isExternal =>
    exact (applyUpdatePath_simulates hbase hheld hw senderLeafIndex path isExternal).bind
      fun x b _ => .pure fun s hs => hs.agrees

theorem Derived.insert (hs : Derived suiteOf held base t ref heap) :
    Good suiteOf (insert ref held) heap where
  valid := hs.good.valid
  alive r hr := by
    obtain rfl | hr := hr
    · exact hs.alive
    · exact hs.good.alive r hr
  inside r hr entry hentry := by
    obtain rfl | hr := hr
    · rw [hs.tree]
      exact hs.within entry hentry
    · exact hs.good.inside r hr entry hentry

/-- An operation leaves a good heap behind, whether it throws or not. -/
theorem TreeOp.run_good (hbase : Good suiteOf held base) (hheld : ref ∈ held)
    (hw : Walkable (base.tree ref).length) (op : TreeOp suiteOf) :
    Good suiteOf (held ∪ op.derived ref base) (exec (op.run ref) base).2 := by
  obtain ⟨hok, herror⟩ := op.run_simulates hbase hheld hw base rfl
  cases hplain : op.uncached (base.tree ref) with
  | error e =>
    obtain ⟨heap, hexec, hs⟩ := herror e hplain
    have hnone : op.derived ref base = ∅ := by
      refine Set.eq_empty_of_forall_notMem fun r hr => ?_
      obtain ⟨v, hv⟩ := hr
      rw [hexec] at hv
      cases hv
    rw [hnone, Set.union_empty, hexec]
    exact hs.good
  | ok x =>
    obtain ⟨⟨newRef, v⟩, heap, hexec, hs⟩ := hok x hplain
    have hderived : ∀ r, r ∈ op.derived ref base ↔ newRef = some r := by
      intro r
      unfold TreeOp.derived
      rw [Set.mem_ofPred_eq, hexec]
      constructor
      · rintro ⟨w, hw⟩
        exact (Prod.mk.inj (Except.ok.inj hw)).1
      · rintro rfl
        exact ⟨v, rfl⟩
    rw [hexec]
    cases newRef with
    | none =>
      have hnone : op.derived ref base = ∅ :=
        Set.eq_empty_of_forall_notMem fun r hr => by cases (hderived r).mp hr
      rw [hnone, Set.union_empty]
      exact hs.good
    | some newRef =>
      have hone : op.derived ref base = {newRef} := by
        ext r
        rw [hderived, Option.some_inj, Set.mem_singleton_iff, eq_comm]
      obtain ⟨t, ht⟩ := hs.derived newRef rfl
      rw [hone, Set.union_singleton]
      exact ht.insert

/-- Every run keeps the caches right. -/
theorem Reachable.good (h : Reachable suiteOf held heap) : Good suiteOf held heap := by
  induction h with
  | start => exact ⟨fun _ _ he => (by cases he), fun _ hr => hr.elim, fun _ hr => hr.elim⟩
  | @received held heap tree h ih =>
    have hsound : Derived suiteOf held heap tree heap.arrays.length (heap.withNew tree) := by
      refine ⟨⟨⟨ih.withNew tree, List.prefix_append ..⟩, ?_, tree_withNew_self tree, ?_⟩, le_rfl⟩
      · rw [length_withNew]
        exact Nat.lt_succ_self _
      · intro entry hentry
        rw [treeHashes_withNew, if_pos rfl] at hentry
        cases hentry
    exact hsound.insert
  | ran op h hheld hw ih => exact op.run_good ih hheld hw

/-- In every heap that operations can leave, an operation on a tree that was handed out returns
what it returns where nothing is cached: the same value, the same error, an array with the same
tree. The arrays that were handed out before are as they were. -/
theorem cache_does_not_show (h : Reachable suiteOf held heap) (hheld : ref ∈ held)
    (hw : Walkable (heap.tree ref).length) (op : TreeOp suiteOf) :
    ((exec (op.run ref) heap).1.map fun result =>
      (result.1.map (exec (op.run ref) heap).2.tree, result.2)) = op.uncached (heap.tree ref) ∧
    ∀ r ∈ held, (exec (op.run ref) heap).2.tree r = heap.tree r := by
  have hgood := h.good
  obtain ⟨hok, herror⟩ := op.run_simulates hgood hheld hw heap rfl
  cases hplain : op.uncached (heap.tree ref) with
  | error e =>
    obtain ⟨heap', hexec, hs⟩ := herror e hplain
    rw [hexec]
    exact ⟨rfl, fun r hr => tree_of_kept hs.kept (hgood.alive r hr)⟩
  | ok x =>
    obtain ⟨b, heap', hexec, hs⟩ := hok x hplain
    rw [hexec]
    refine ⟨?_, fun r hr => tree_of_kept hs.kept (hgood.alive r hr)⟩
    exact congrArg Except.ok (Prod.ext hs.tree hs.value)

/-- Two leaves, whose root was hashed. -/
def hashedHeap : TreeHeap :=
  (exec ((TreeOp.treeHashRoot 0 : TreeOp fun _ => plainSuite).run 0)
    (TreeHeap.withNew { arrays := [], treeHashes := fun _ => none }
      [some (.leaf (plainLeaf 1)), none, some (.leaf (plainLeaf 2))])).2

theorem hashedHeap_reachable :
    ∃ held, Reachable (fun _ => plainSuite) held hashedHeap ∧ 0 ∈ held :=
  ⟨_, .ran (.treeHashRoot 0) (.received _ .start) (.inl rfl) ⟨by decide, by decide⟩,
    .inl (.inl rfl)⟩

/-- The root hash is read from the cache, and the tree is as it was. -/
theorem cached_hash_is_read :
    (hashedHeap.treeHashes 0).isSome ∧
    ((exec ((TreeOp.treeHashRoot 0 : TreeOp fun _ => plainSuite).run 0) hashedHeap).1.map fun r =>
      (r.1.map (exec ((TreeOp.treeHashRoot 0 : TreeOp fun _ => plainSuite).run 0) hashedHeap).2.tree,
        r.2)) = (TreeOp.treeHashRoot 0 : TreeOp fun _ => plainSuite).uncached (hashedHeap.tree 0) := by
  obtain ⟨held, hreach, hheld⟩ := hashedHeap_reachable
  exact ⟨by decide +kernel, (cache_does_not_show hreach hheld ⟨by decide +kernel, by decide +kernel⟩
    (.treeHashRoot 0)).1⟩

end

end TreeCache
end WebcryptoMls
