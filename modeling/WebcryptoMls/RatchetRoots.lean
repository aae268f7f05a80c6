import WebcryptoMls.LeafSecrets
import WebcryptoMls.TreeArithmetic

/-!
# The ratchets of a new secret tree

The secrets are written down the tree into one array, each below the node it is
expanded from. A call writes into its own subtree only, so what the call for the
left child wrote is still there after the call for the right one, and the secret
of a leaf is the one at the end of its path. The second pass keeps the leaves.
-/
namespace WebcryptoMls
open InOrder (index size Below)
open Records

/-- What `deriveChildren` leaves in the array below node `j` of level `k`. -/
structure DerivedBelow (kdf : Kdf) (k j : ℕ) (secret : Bytes) (tree tree' : List (Option Bytes)) :
    Prop where
  length : tree'.length = tree.length
  leaf : ∀ i, i / 2 ^ k = j → ∃ leaf, expandPath kdf secret (directions k i) = .ok leaf ∧
    tree'[index 0 i]? = some (some leaf)
  frame : ∀ k' j', ¬Below k' j' k j → tree'[index k' j']? = tree[index k' j']?

/-- A new tree: a leaf's ratchets start from the roots its path leads to, and
nothing else has any. -/
structure OwnRatchets (kdf : Kdf) (d : ℕ) (encryptionSecret : Bytes) (tree : SecretTree) : Prop where
  length : tree.length = nodeWidth (2 ^ d)
  leaf : ∀ i < 2 ^ d, ∃ node, ratchetsAt tree (leafToNodeIndex i) = some node ∧
    ∀ name, ratchetRoot kdf d encryptionSecret i name = .ok (node.ratchet name).secret ∧
      (node.ratchet name).generation = 0 ∧ (node.ratchet name).unusedGenerations = .empty
  inner : ∀ x, InTree d x → isLeaf x = false → ratchetsAt tree x = none

/-- No secret starts two ratchets. -/
def DistinctRoots (tree : SecretTree) : Prop :=
  ∀ i i' node node' name name', ratchetsAt tree (leafToNodeIndex i) = some node →
    ratchetsAt tree (leafToNodeIndex i') = some node' →
    (node.ratchet name).secret = (node'.ratchet name').secret → i = i' ∧ name = name'

section
variable {kdf : Kdf} {d k j fuel : ℕ} {secret : Bytes} {tree tree' : List (Option Bytes)}

theorem writeAt_coord {α : Type} {tree : List (Option α)} (h : index k j < tree.length) (a : α) :
    writeAt tree (coord k j) a = tree.set (index k j) (some a) := by
  rw [writeAt, if_neg (coord_nonneg k j).not_gt, coord_toNat, Nat.sub_eq_zero_of_le h]
  simp

/-- The array after the secrets of both children are written. -/
def withChildren (tree : List (Option Bytes)) (k j : ℕ) (leftSecret rightSecret : Bytes) :
    List (Option Bytes) :=
  (tree.set (index k (2 * j)) (some leftSecret)).set (index k (2 * j + 1)) (some rightSecret)

/-- One step down the tree. -/
theorem deriveChildren_succ (hd : d ≤ 30) (hlen : tree.length = size d)
    (hlt : index (k + 1) j < size d) (hs : tree[index (k + 1) j]? = some (some secret)) :
    deriveChildren kdf (fuel + 1) tree (coord (k + 1) j) = (do
      let leftSecret ← (Expansion.child secret .left).run kdf
      let rightSecret ← (Expansion.child secret .right).run kdf
      let tree ← deriveChildren kdf fuel (withChildren tree k j leftSecret rightSecret)
        (coord k (2 * j))
      deriveChildren kdf fuel tree (coord k (2 * j + 1))) := by
  have hsz := size_lt_of_le hd
  have hk := (InOrder.index_lt_size.mp hlt).1
  have hl := child_lt_size hlt (show 2 * j ≤ 2 * j + 1 by omega)
  have hr := child_lt_size hlt le_rfl
  have hwrite : ∀ a b, writeAt (writeAt tree (coord k (2 * j)) a) (coord k (2 * j + 1)) b =
      withChildren tree k j a b := by
    intro a b
    rw [writeAt_coord (show index k (2 * j) < tree.length by omega),
      writeAt_coord (by rw [List.length_set]; omega), withChildren]
  rw [deriveChildren, isLeaf_coord, decide_eq_false (Nat.succ_ne_zero k), left_coord (by omega),
    right_coord (by omega) (by omega), coord_toNat, hs]
  simp only [Bool.false_eq_true, if_false, ok_bind, Option.join_some, hwrite]
  rfl

theorem length_withChildren (tree : List (Option Bytes)) (k j : ℕ) (a b : Bytes) :
    (withChildren tree k j a b).length = tree.length := by
  simp [withChildren]

theorem withChildren_left (hlen : tree.length = size d) (hlt : index (k + 1) j < size d)
    (a b : Bytes) : (withChildren tree k j a b)[index k (2 * j)]? = some (some a) := by
  have hl := child_lt_size hlt (show 2 * j ≤ 2 * j + 1 by omega)
  have hne : index k (2 * j + 1) ≠ index k (2 * j) := fun h => by
    have := (InOrder.index_inj h).2
    omega
  rw [withChildren, List.getElem?_set_ne hne, List.getElem?_set_self (by omega)]

theorem withChildren_right (hlen : tree.length = size d) (hlt : index (k + 1) j < size d)
    (a b : Bytes) : (withChildren tree k j a b)[index k (2 * j + 1)]? = some (some b) := by
  have hr := child_lt_size hlt le_rfl
  rw [withChildren, List.getElem?_set_self (by rw [List.length_set]; omega)]

theorem withChildren_frame {k' j' : ℕ} (h : ¬Below k' j' (k + 1) j) (a b : Bytes) :
    (withChildren tree k j a b)[index k' j']? = tree[index k' j']? := by
  have hl : index k (2 * j) ≠ index k' j' := fun heq => by
    obtain ⟨rfl, rfl⟩ := InOrder.index_inj heq
    exact h (InOrder.below_left k j)
  have hr : index k (2 * j + 1) ≠ index k' j' := fun heq => by
    obtain ⟨rfl, rfl⟩ := InOrder.index_inj heq
    exact h (InOrder.below_right k j)
  rw [withChildren, List.getElem?_set_ne hr, List.getElem?_set_ne hl]

/-- What the right child's call reads is not touched by the left child's. -/
theorem DerivedBelow.rightSecret {a b : Bytes}
    (h : DerivedBelow kdf k (2 * j) a (withChildren tree k j a b) tree') (hlen : tree.length = size d)
    (hlt : index (k + 1) j < size d) : tree'[index k (2 * j + 1)]? = some (some b) := by
  have hout : ¬Below k (2 * j + 1) k (2 * j) := by simp [Below]
  rw [h.frame k (2 * j + 1) hout, withChildren_right hlen hlt]

/-- The call writes the secrets below its node and nothing else. -/
theorem deriveChildren_derives (hd : d ≤ 30) (hlen : tree.length = size d) (hlt : index k j < size d)
    (hs : tree[index k j]? = some (some secret)) (hfuel : k < fuel)
    (h : deriveChildren kdf fuel tree (coord k j) = .ok tree') :
    DerivedBelow kdf k j secret tree tree' := by
  induction k generalizing j secret fuel tree tree' with
  | zero =>
    obtain ⟨fuel, rfl⟩ := Nat.exists_eq_add_of_lt hfuel
    obtain rfl : tree = tree' := by simpa [deriveChildren, pure, Except.pure] using h
    refine ⟨rfl, fun i hi => ⟨secret, rfl, ?_⟩, fun _ _ _ => rfl⟩
    rw [pow_zero, Nat.div_one] at hi
    rw [hi, hs]
  | succ k ih =>
    obtain ⟨fuel, rfl⟩ := Nat.exists_eq_succ_of_ne_zero (show fuel ≠ 0 by omega)
    have hl := child_lt_size hlt (show 2 * j ≤ 2 * j + 1 by omega)
    have hr := child_lt_size hlt le_rfl
    rw [deriveChildren_succ hd hlen hlt hs] at h
    obtain ⟨leftSecret, hleft, h⟩ := bind_eq_ok.mp h
    obtain ⟨rightSecret, hright, h⟩ := bind_eq_ok.mp h
    obtain ⟨mid, hmid, h⟩ := bind_eq_ok.mp h
    have hwritten := length_withChildren tree k j leftSecret rightSecret
    have dleft := ih (hwritten.trans hlen) hl (withChildren_left hlen hlt _ _) (by omega) hmid
    have hkept := dleft.rightSecret hlen hlt
    have dright := ih (dleft.length.trans (hwritten.trans hlen)) hr hkept (by omega) h
    refine ⟨?_, fun i hi => ?_, fun k' j' hout => ?_⟩
    · rw [dright.length, dleft.length, hwritten]
    · rw [InOrder.div_two_pow_succ] at hi
      rcases Nat.mod_two_eq_zero_or_one (i / 2 ^ k) with hside | hside
      · have hi' : i / 2 ^ k = 2 * j := by omega
        obtain ⟨leaf, hleaf, hat⟩ := dleft.leaf i hi'
        refine ⟨leaf, ?_, ?_⟩
        · rw [directions, direction_left k j hi']
          exact expandPath_cons.mpr ⟨leftSecret, hleft, hleaf⟩
        · rw [dright.frame 0 i (by rw [InOrder.below_leaf]; omega), hat]
      · have hi' : i / 2 ^ k = 2 * j + 1 := by omega
        obtain ⟨leaf, hleaf, hat⟩ := dright.leaf i hi'
        refine ⟨leaf, ?_, hat⟩
        rw [directions, direction_right k j hi']
        exact expandPath_cons.mpr ⟨rightSecret, hright, hleaf⟩
    · rw [dright.frame k' j' fun hb => hout (hb.trans (InOrder.below_right k j)),
        dleft.frame k' j' fun hb => hout (hb.trans (InOrder.below_left k j)),
        withChildren_frame hout]

/-- Where the paths through a child return, the child's secret does. -/
theorem childSecret_returns {c : ℕ} {dir : Direction}
    (hdir : ∀ i, i / 2 ^ k = c → direction k i = dir)
    (hpaths : ∀ i, i / 2 ^ k = c → ∃ leaf, expandPath kdf secret (directions (k + 1) i) = .ok leaf) :
    ∃ child, (Expansion.child secret dir).run kdf = .ok child ∧
      ∀ i, i / 2 ^ k = c → ∃ leaf, expandPath kdf child (directions k i) = .ok leaf := by
  have hstep : ∀ i, i / 2 ^ k = c → ∃ child leaf, (Expansion.child secret dir).run kdf = .ok child ∧
      expandPath kdf child (directions k i) = .ok leaf := by
    intro i hi
    obtain ⟨leaf, hleaf⟩ := hpaths i hi
    rw [directions, hdir i hi] at hleaf
    obtain ⟨child, hchild, hrest⟩ := expandPath_cons.mp hleaf
    exact ⟨child, leaf, hchild, hrest⟩
  obtain ⟨i, hi⟩ := InOrder.exists_leaf k c
  obtain ⟨child, -, hchild, -⟩ := hstep i hi
  refine ⟨child, hchild, fun i' hi' => ?_⟩
  obtain ⟨child', leaf, hchild', hleaf⟩ := hstep i' hi'
  obtain rfl := Except.ok.inj (hchild.symm.trans hchild')
  exact ⟨leaf, hleaf⟩

/-- The call returns where the expansions on every path below its node do. -/
theorem deriveChildren_returns (hd : d ≤ 30) (hlen : tree.length = size d)
    (hlt : index k j < size d) (hs : tree[index k j]? = some (some secret)) (hfuel : k < fuel)
    (hpaths : ∀ i, i / 2 ^ k = j → ∃ leaf, expandPath kdf secret (directions k i) = .ok leaf) :
    ∃ tree', deriveChildren kdf fuel tree (coord k j) = .ok tree' := by
  induction k generalizing j secret fuel tree with
  | zero =>
    obtain ⟨fuel, rfl⟩ := Nat.exists_eq_succ_of_ne_zero (show fuel ≠ 0 by omega)
    exact ⟨tree, by simp [deriveChildren, pure, Except.pure]⟩
  | succ k ih =>
    obtain ⟨fuel, rfl⟩ := Nat.exists_eq_succ_of_ne_zero (show fuel ≠ 0 by omega)
    have hl := child_lt_size hlt (show 2 * j ≤ 2 * j + 1 by omega)
    have hr := child_lt_size hlt le_rfl
    obtain ⟨leftSecret, hleft, hleftPaths⟩ := childSecret_returns (fun _ => direction_left k j)
      fun i hi => hpaths i (by rw [InOrder.div_two_pow_succ]; omega)
    obtain ⟨rightSecret, hright, hrightPaths⟩ := childSecret_returns (fun _ => direction_right k j)
      fun i hi => hpaths i (by rw [InOrder.div_two_pow_succ]; omega)
    have hwritten := length_withChildren tree k j leftSecret rightSecret
    have hatLeft := withChildren_left hlen hlt leftSecret rightSecret
    obtain ⟨mid, hmid⟩ := ih (hwritten.trans hlen) hl hatLeft (show k < fuel by omega)
      hleftPaths
    have dleft := deriveChildren_derives hd (hwritten.trans hlen) hl hatLeft (by omega) hmid
    have hkept := dleft.rightSecret hlen hlt
    obtain ⟨tree', htree'⟩ := ih (dleft.length.trans (hwritten.trans hlen)) hr hkept
      (show k < fuel by omega) hrightPaths
    refine ⟨tree', ?_⟩
    rw [deriveChildren_succ hd hlen hlt hs, hleft, ok_bind, hright, ok_bind, hmid, ok_bind, htree']

/-! ## The two passes -/

theorem createRatchetRoot_eq_ok {label : String} {ratchet : GenerationSecret} :
    createRatchetRoot secret label kdf = .ok ratchet ↔
      expandWithLabel secret label [] kdf.size kdf = .ok ratchet.secret ∧ ratchet.generation = 0 ∧
        ratchet.unusedGenerations = .empty := by
  rw [createRatchetRoot, bind_eq_ok]
  constructor
  · rintro ⟨root, hroot, h⟩
    obtain rfl := Except.ok.inj h
    exact ⟨hroot, rfl, rfl⟩
  · rintro ⟨hroot, hgen, hunused⟩
    refine ⟨_, hroot, ?_⟩
    rw [← hgen, ← hunused]
    rfl

/-- The second pass at a leaf, which keeps what its secret is expanded to. -/
theorem createRatchets_leaf {i : ℕ} {slot : Option SecretTreeNode} :
    createRatchets kdf (some secret) (index 0 i) = .ok slot ↔ ∃ node, slot = some node ∧
      ∀ name, expandWithLabel secret name.label [] kdf.size kdf = .ok (node.ratchet name).secret ∧
        (node.ratchet name).generation = 0 ∧ (node.ratchet name).unusedGenerations = .empty := by
  have hleaf : isLeaf (index 0 i : ℕ) = true := isLeaf_coord 0 i
  rw [createRatchets, if_pos hleaf]
  constructor
  · intro h
    obtain ⟨application, happlication, h⟩ := bind_eq_ok.mp h
    obtain ⟨handshake, hhandshake, h⟩ := bind_eq_ok.mp h
    obtain rfl := Except.ok.inj h
    refine ⟨_, rfl, fun name => ?_⟩
    cases name with
    | handshake => exact createRatchetRoot_eq_ok.mp hhandshake
    | application => exact createRatchetRoot_eq_ok.mp happlication
  · rintro ⟨node, rfl, h⟩
    have happlication := createRatchetRoot_eq_ok.mpr (h .application)
    have hhandshake := createRatchetRoot_eq_ok.mpr (h .handshake)
    simp only [RatchetName.label] at happlication hhandshake
    rw [happlication, ok_bind, hhandshake, ok_bind]
    rfl

theorem createRatchets_inner (hk : k ≠ 0) (secret : Option Bytes) :
    createRatchets kdf secret (index k j) = .ok none := by
  have hinner : isLeaf (index k j : ℕ) = false := by
    rw [← coord, isLeaf_coord, decide_eq_false hk]
  cases secret with
  | none => rfl
  | some secret =>
    rw [createRatchets, if_neg (by rw [hinner]; exact Bool.false_ne_true)]
    rfl

/-- The array the first pass starts from. -/
theorem scaffoldSecretTree_eq (hd : d ≤ 30) (encryptionSecret : Bytes) :
    scaffoldSecretTree (2 ^ d) encryptionSecret kdf = deriveChildren kdf 33
      ((List.replicate (size d) none).set (index d 0) (some encryptionSecret)) (coord d 0) := by
  have hroot : index d 0 < size d := InOrder.index_lt_size.mpr ⟨le_rfl, Nat.two_pow_pos _⟩
  rw [scaffoldSecretTree, nodeWidth_two_pow, root_two_pow hd,
    writeAt_coord (by rwa [List.length_replicate])]

theorem scaffold_root (encryptionSecret : Bytes) :
    ((List.replicate (size d) none).set (index d 0) (some encryptionSecret))[index d 0]? =
      some (some encryptionSecret) := by
  rw [List.getElem?_set_self]
  rw [List.length_replicate]
  exact InOrder.index_lt_size.mpr ⟨le_rfl, Nat.two_pow_pos _⟩

theorem scaffoldSecretTree_derives (hd : d ≤ 30) {encryptionSecret : Bytes}
    (h : scaffoldSecretTree (2 ^ d) encryptionSecret kdf = .ok tree) :
    tree.length = size d ∧ ∀ i < 2 ^ d, ∃ leaf,
      expandPath kdf encryptionSecret (directions d i) = .ok leaf ∧
        tree[index 0 i]? = some (some leaf) := by
  rw [scaffoldSecretTree_eq hd] at h
  have hlen : ((List.replicate (size d) none).set (index d 0) (some encryptionSecret)).length =
      size d := by simp
  have derived := deriveChildren_derives hd hlen (InOrder.index_lt_size.mpr
    ⟨le_rfl, Nat.two_pow_pos _⟩) (scaffold_root encryptionSecret) (by omega) h
  exact ⟨derived.length.trans hlen, fun i hi => derived.leaf i (InOrder.div_two_pow_eq_zero hi)⟩

variable {out : SecretTree} {encryptionSecret : Bytes}

/-- The second pass treats every slot on its own. -/
theorem createSecretTree_slots (h : createSecretTree (2 ^ d) encryptionSecret kdf = .ok out) :
    ∃ tree, scaffoldSecretTree (2 ^ d) encryptionSecret kdf = .ok tree ∧ out.length = tree.length ∧
      ∀ n secret, tree[n]? = some secret → ∃ ratchets, out[n]? = some ratchets ∧
        createRatchets kdf secret n = .ok ratchets := by
  obtain ⟨tree, htree, h⟩ := bind_eq_ok.mp h
  have hall := forall₂_of_mapM h
  have hlen : out.length = tree.length := by simpa using hall.length_eq.symm
  refine ⟨tree, htree, hlen, fun n secret hn => ?_⟩
  obtain ⟨hlt, rfl⟩ := List.getElem?_eq_some_iff.mp hn
  have hget := hall.get (i := n) (by simpa using hlt) (by omega)
  simp only [List.get_eq_getElem, List.getElem_zipIdx, Nat.zero_add] at hget
  exact ⟨out[n], List.getElem?_eq_getElem _, hget⟩

theorem ratchetsAt_coord (out : SecretTree) (k j : ℕ) :
    ratchetsAt out (coord k j) = out[index k j]?.join := by
  rw [ratchetsAt, if_neg (coord_nonneg k j).not_gt, coord_toNat]

theorem createSecretTree_ownRatchets (hd : d ≤ 30)
    (h : createSecretTree (2 ^ d) encryptionSecret kdf = .ok out) :
    OwnRatchets kdf d encryptionSecret out := by
  obtain ⟨tree, htree, hlen, hslots⟩ := createSecretTree_slots h
  obtain ⟨hsize, hleaves⟩ := scaffoldSecretTree_derives hd htree
  refine ⟨by rw [hlen, hsize, nodeWidth_two_pow], fun i hi => ?_, fun x hx hinner => ?_⟩
  · obtain ⟨leaf, hleaf, hat⟩ := hleaves i hi
    obtain ⟨ratchets, hout, hcreate⟩ := hslots _ _ hat
    obtain ⟨node, rfl, hnode⟩ := createRatchets_leaf.mp hcreate
    refine ⟨node, by rw [leafToNodeIndex_eq, ratchetsAt_coord, hout]; rfl, fun name => ?_⟩
    refine ⟨?_, (hnode name).2⟩
    rw [ratchetRoot, hleaf, ok_bind]
    exact (hnode name).1
  · obtain ⟨k, j, rfl, hkj⟩ := inTree_iff.mp hx
    have hk : k ≠ 0 := by
      rintro rfl
      simp at hinner
    have hlt : index k j < tree.length := hsize ▸ InOrder.index_lt_size.mpr hkj
    obtain ⟨ratchets, hout, hcreate⟩ := hslots _ _ (List.getElem?_eq_getElem hlt)
    obtain rfl := Except.ok.inj ((createRatchets_inner hk _).symm.trans hcreate)
    rw [ratchetsAt_coord, hout]
    rfl

/-- The two ratchets of a leaf whose roots are known. -/
theorem ratchets_of_roots {i : ℕ} {leaf : Bytes}
    (hleaf : expandPath kdf encryptionSecret (directions d i) = .ok leaf)
    (hroots : ∀ name, ∃ root, ratchetRoot kdf d encryptionSecret i name = .ok root) :
    ∃ node : SecretTreeNode, ∀ name,
      expandWithLabel leaf name.label [] kdf.size kdf = .ok (node.ratchet name).secret ∧
        (node.ratchet name).generation = 0 ∧ (node.ratchet name).unusedGenerations = .empty := by
  simp only [ratchetRoot, hleaf, ok_bind] at hroots
  choose root hroot using hroots
  refine ⟨{ handshake := ⟨root .handshake, 0, .empty⟩, application := ⟨root .application, 0, .empty⟩ },
    fun name => ?_⟩
  cases name with
  | handshake => exact ⟨hroot .handshake, rfl, rfl⟩
  | application => exact ⟨hroot .application, rfl, rfl⟩

theorem createSecretTree_returns (hd : d ≤ 30)
    (hroots : ∀ i < 2 ^ d, ∀ name, ∃ root, ratchetRoot kdf d encryptionSecret i name = .ok root) :
    ∃ out, createSecretTree (2 ^ d) encryptionSecret kdf = .ok out := by
  have hpaths : ∀ i, i / 2 ^ d = 0 → ∃ leaf,
      expandPath kdf encryptionSecret (directions d i) = .ok leaf := by
    intro i hi
    obtain ⟨root, hroot⟩ :=
      hroots i ((Nat.div_eq_zero_iff_lt (Nat.two_pow_pos d)).mp hi) .application
    obtain ⟨leaf, hleaf, -⟩ := bind_eq_ok.mp hroot
    exact ⟨leaf, hleaf⟩
  obtain ⟨tree, htree⟩ := deriveChildren_returns hd (by simp) (InOrder.index_lt_size.mpr
    ⟨le_rfl, Nat.two_pow_pos _⟩) (scaffold_root encryptionSecret) (show d < 33 by omega) hpaths
  rw [← scaffoldSecretTree_eq hd] at htree
  obtain ⟨hsize, hleaves⟩ := scaffoldSecretTree_derives hd htree
  have hslot : ∀ slot ∈ tree.zipIdx, ∃ ratchets, createRatchets kdf slot.1 slot.2 = .ok ratchets := by
    rintro ⟨secret, n⟩ hmem
    rw [List.mem_zipIdx_iff_getElem?] at hmem
    obtain ⟨k, j, rfl⟩ := InOrder.exists_index n
    by_cases hk : k = 0
    · subst hk
      have hi : j < 2 ^ d := InOrder.leaf_lt_size.mp (hsize ▸ (List.getElem?_eq_some_iff.mp hmem).1)
      obtain ⟨leaf, hleaf, hat⟩ := hleaves j hi
      obtain rfl := Option.some.inj (hat.symm.trans hmem)
      obtain ⟨node, hnode⟩ := ratchets_of_roots hleaf (hroots j hi)
      exact ⟨some node, createRatchets_leaf.mpr ⟨node, rfl, hnode⟩⟩
    · exact ⟨none, createRatchets_inner hk secret⟩
  obtain ⟨out, hout⟩ := mapM_returns hslot
  exact ⟨out, bind_eq_ok.mpr ⟨tree, htree, hout⟩⟩

theorem OwnRatchets.distinctRoots (h : OwnRatchets kdf d encryptionSecret out)
    (hsep : Separate kdf (expansions kdf d encryptionSecret)) : DistinctRoots out := by
  have hroot : ∀ i node name, ratchetsAt out (leafToNodeIndex i) = some node →
      i < 2 ^ d ∧ ratchetRoot kdf d encryptionSecret i name = .ok (node.ratchet name).secret := by
    intro i node name hat
    have hi : i < 2 ^ d := by
      rw [leafToNodeIndex_eq, ratchetsAt_coord, Option.join_eq_some_iff] at hat
      have hlt := (List.getElem?_eq_some_iff.mp hat).1
      rwa [h.length, nodeWidth_two_pow, InOrder.leaf_lt_size] at hlt
    obtain ⟨node', hat', hnode⟩ := h.leaf i hi
    obtain rfl := Option.some.inj (hat.symm.trans hat')
    exact ⟨hi, (hnode name).1⟩
  intro i i' node node' name name' hat hat' hsame
  obtain ⟨hi, hr⟩ := hroot i node name hat
  obtain ⟨hi', hr'⟩ := hroot i' node' name' hat'
  exact ratchetRoot_inj hsep hi hi' hr (hsame ▸ hr')

end

theorem plainExpansion_returns (secret : Bytes) (dir : Direction) :
    ∃ out, (Expansion.child secret dir).run plainSuite.kdf = .ok out := by
  cases dir <;> exact ⟨_, rfl⟩

theorem plainPath_returns (secret : Bytes) (path : List Direction) :
    ∃ leaf, expandPath plainSuite.kdf secret path = .ok leaf := by
  induction path generalizing secret with
  | nil => exact ⟨secret, rfl⟩
  | cons dir path ih =>
    obtain ⟨child, hchild⟩ := plainExpansion_returns secret dir
    obtain ⟨leaf, hleaf⟩ := ih child
    exact ⟨leaf, expandPath_cons.mpr ⟨child, hchild, hleaf⟩⟩

theorem plainRoot_returns (d : ℕ) (secret : Bytes) (i : ℕ) (name : RatchetName) :
    ∃ root, ratchetRoot plainSuite.kdf d secret i name = .ok root := by
  obtain ⟨leaf, hleaf⟩ := plainPath_returns secret (directions d i)
  rw [ratchetRoot, hleaf, ok_bind]
  cases name <;> exact ⟨_, rfl⟩

/-- In a tree of every width whose nodes 31 bits can count, each leaf has the ratchets
its own path leads to, and no other leaf and no other kind has a root of theirs. -/
theorem secret_tree_gives_leaves_own_ratchets (d : ℕ) (hsmall : nodeWidth (2 ^ d) < 2 ^ 31)
    (encryptionSecret : Bytes) (kdf : Kdf) :
    (∀ i < 2 ^ d, descend (root (2 ^ d)) (directions d i) = .ok (leafToNodeIndex i)) ∧
    ((∀ i < 2 ^ d, ∀ name, ∃ secret, ratchetRoot kdf d encryptionSecret i name = .ok secret) →
      ∃ tree, createSecretTree (2 ^ d) encryptionSecret kdf = .ok tree) ∧
    ∀ tree, createSecretTree (2 ^ d) encryptionSecret kdf = .ok tree →
      OwnRatchets kdf d encryptionSecret tree ∧
      (CollisionFree (fun x : Bytes × Bytes => kdf.expand x.1 x.2 kdf.size)
        (expandInputs kdf d encryptionSecret) → DistinctRoots tree) := by
  have hd := depth_le hsmall
  refine ⟨fun i hi => ?_, createSecretTree_returns hd, fun tree htree => ?_⟩
  · have hpath := descend_directions hd le_rfl hi
    rwa [InOrder.div_two_pow_eq_zero hi, ← root_two_pow hd] at hpath
  · have hown := createSecretTree_ownRatchets hd htree
    exact ⟨hown, fun hfree => hown.distinctRoots (collisionFree_iff_separate.mp hfree)⟩

theorem plainTree_separate : Separate plainSuite.kdf (expansions plainSuite.kdf 1 [7]) := by
  have hrun : ∀ e ∈ expansions plainSuite.kdf 1 [7], ∀ e' ∈ expansions plainSuite.kdf 1 [7],
      e.run plainSuite.kdf = e'.run plainSuite.kdf → e = e' := by decide +kernel
  exact fun e he e' he' out hout hout' => hrun e he e' he' (hout.trans hout'.symm)

/-- Two leaves with four roots. -/
theorem secret_tree_of_two_leaves : nodeWidth (2 ^ 1) < 2 ^ 31 ∧
    ∃ tree, createSecretTree (2 ^ 1) [7] plainSuite.kdf = .ok tree ∧
      OwnRatchets plainSuite.kdf 1 [7] tree ∧ DistinctRoots tree := by
  have hsmall : nodeWidth (2 ^ 1) < 2 ^ 31 := by
    rw [nodeWidth_two_pow]
    decide
  obtain ⟨-, hreturns, hown⟩ := secret_tree_gives_leaves_own_ratchets 1 hsmall [7] plainSuite.kdf
  obtain ⟨tree, htree⟩ := hreturns fun i _ => plainRoot_returns 1 [7] i
  obtain ⟨hratchets, hdistinct⟩ := hown tree htree
  exact ⟨hsmall, tree, htree, hratchets, hdistinct (collisionFree_iff_separate.mpr plainTree_separate)⟩

/-! ## The widest tree an array can hold -/

/-- The computed root is no node index, so the first step down is refused. -/
theorem createSecretTree_widest_throws (encryptionSecret : Bytes) (kdf : Kdf) :
    createSecretTree (2 ^ 31) encryptionSecret kdf =
      .error (validationError "node index out of range: -2147483649") := by
  have hleft : left (-2147483649) =
      .error (validationError "node index out of range: -2147483649") := by decide +kernel
  have hinner : isLeaf (-2147483649) = false := by decide
  rw [createSecretTree, scaffoldSecretTree, root_widest, deriveChildren, hinner, hleft]
  rfl

/-- Every root exists, but no tree is returned. -/
theorem widest_secret_tree_has_no_ratchets :
    (∀ i < 2 ^ 31, ∀ name, ∃ secret, ratchetRoot plainSuite.kdf 31 [7] i name = .ok secret) ∧
    createSecretTree (2 ^ 31) [7] plainSuite.kdf =
      .error (validationError "node index out of range: -2147483649") :=
  ⟨fun i _ => plainRoot_returns 31 [7] i, createSecretTree_widest_throws [7] plainSuite.kdf⟩

end WebcryptoMls
