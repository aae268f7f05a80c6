import WebcryptoMls.TreeCache
import WebcryptoMls.TreeWidths

/-!
# The cache does not show

Every hash that is cached for a tree is the hash of its subtree, so an operation that reads
the cache returns what it would compute afresh. Where a tree is written after its cache is
seeded, the cache holds nothing of the places that are written.
-/
namespace WebcryptoMls
namespace TreeCache
open HiddenState InOrder

/-! ## Subtree hashes -/

/-- What is kept for a tree is the hash of its subtrees. -/
def ValidHashes (t : RatchetTree) (h : Hash) (hashes : Hashes) : Prop :=
  ∀ n v, hashes n = some v →
    ∃ k j, n = coord k j ∧ index k j < size 30 ∧ subtreeHashAt (slot t) h k j = .ok v

/-- What is kept is of places in `E`. -/
def Within (hashes : Hashes) (E : ℕ → ℕ → Prop) : Prop :=
  ∀ k j v, hashes (coord k j) = some v → E k j

theorem Within.mono {hashes : Hashes} {E E' : ℕ → ℕ → Prop} (h : Within hashes E)
    (hE : ∀ k j, E k j → E' k j) : Within hashes E' :=
  fun k j v hv => hE k j (h k j v hv)

theorem ValidHashes.get {t : RatchetTree} {h : Hash} {hashes : Hashes} {k j : ℕ} {v : Bytes}
    (hvalid : ValidHashes t h hashes) (hv : hashes (coord k j) = some v) :
    subtreeHashAt (slot t) h k j = .ok v := by
  obtain ⟨k', j', heq, -, hhash⟩ := hvalid _ v hv
  obtain ⟨rfl, rfl⟩ := coord_inj.mp heq
  exact hhash

theorem ValidHashes.set {t : RatchetTree} {h : Hash} {hashes : Hashes} {k j : ℕ} {v : Bytes}
    (hvalid : ValidHashes t h hashes) (hlt : index k j < size 30)
    (hv : subtreeHashAt (slot t) h k j = .ok v) :
    ValidHashes t h (hashes.set (coord k j) (some v)) := by
  intro n w hw
  unfold Hashes.set at hw
  split_ifs at hw with hn
  · obtain rfl := Option.some.inj hw
    exact ⟨k, j, hn, hlt, hv⟩
  · exact hvalid n w hw

/-- The cache of a call: valid, and nothing was added but below the place that is hashed. -/
structure Filling (t : RatchetTree) (h : Hash) (before : Hashes) (k j : ℕ) (hashes : Hashes) :
    Prop where
  valid : ValidHashes t h hashes
  added : ∀ k' j' v, hashes (coord k' j') = some v →
    before (coord k' j') = some v ∨ Below k' j' k j

theorem Filling.set {t : RatchetTree} {h : Hash} {before hashes : Hashes} {m c k j : ℕ} {v : Bytes}
    (hf : Filling t h before m c hashes) (hb : Below k j m c) (hlt : index k j < size 30)
    (hv : subtreeHashAt (slot t) h k j = .ok v) :
    Filling t h before m c (hashes.set (coord k j) (some v)) where
  valid := hf.valid.set hlt hv
  added k' j' w hw := by
    unfold Hashes.set at hw
    split_ifs at hw with hn
    · obtain ⟨rfl, rfl⟩ := coord_inj.mp hn
      exact .inr hb
    · exact hf.added k' j' w hw

/-- What is kept is the hash, and a hash that is computed is kept. -/
theorem keepHash_simulates {t : RatchetTree} {h : Hash} {before : Hashes} {m c k j : ℕ}
    {compute : Stateful Hashes MlsError Bytes} (hb : Below k j m c) (hlt : index k j < size 30)
    (hcompute : Simulates (Filling t h before m c) (Filling t h before m c) compute
      (subtreeHashAt (slot t) h k j) fun x b s => b = x ∧ Filling t h before m c s) :
    Simulates (Filling t h before m c) (Filling t h before m c) (keepHash (coord k j) compute)
      (subtreeHashAt (slot t) h k j) fun x b s => b = x ∧ Filling t h before m c s := by
  unfold keepHash
  refine .get fun s hs => ?_
  cases hcache : s (coord k j) with
  | some cached =>
    rw [hs.valid.get hcache]
    refine .pure ?_
    rintro s' rfl
    exact ⟨rfl, hs⟩
  | none =>
    dsimp only
    have hcompute : Simulates (Filling t h before m c) (Eq s) compute
        (subtreeHashAt (slot t) h k j) fun x b s => b = x ∧ Filling t h before m c s :=
      hcompute.conseq (fun s' (h' : s = s') => h' ▸ hs) fun _ _ _ _ hs' => hs'
    refine hcompute.bind_then fun x hash hhash s' hs' => ?_
    obtain ⟨rfl, hs'⟩ := hs'
    refine Simulates.bind_left (R := fun _ _ s' => Filling t h before m c s')
      (.change fun s' hs' => hs'.set hb hlt hhash) (fun _ => .pure fun s' hs' => ⟨rfl, hs'⟩) s' hs'

theorem subtreeHash_simulates {t : RatchetTree} {h : Hash} {before : Hashes} {m c : ℕ} (k : ℕ) :
    ∀ {j fuel : ℕ}, k < fuel → index k j < size 30 → Below k j m c →
      Simulates (Filling t h before m c) (Filling t h before m c)
        (subtreeHash t h fuel (coord k j)) (subtreeHashAt (slot t) h k j)
        fun x b s => b = x ∧ Filling t h before m c s := by
  have hkeep : ∀ s, Filling t h before m c s → Filling t h before m c s := fun s hs => hs
  induction k with
  | zero =>
    intro j fuel hf hlt hb
    obtain ⟨fuel, rfl⟩ := Nat.exists_eq_succ_of_ne_zero (show fuel ≠ 0 by omega)
    refine keepHash_simulates hb hlt ?_
    rw [if_pos (by simp), subtreeHashAt, nodeToLeafIndex_coord]
    refine .plain_bind hkeep fun leafNode _ => ?_
    refine .read (fun s _ => rfl) ?_
    exact .plain_bind hkeep fun input _ => .pure fun s hs => ⟨rfl, hs⟩
  | succ k ih =>
    intro j fuel hf hlt hb
    obtain ⟨fuel, rfl⟩ := Nat.exists_eq_succ_of_ne_zero (show fuel ≠ 0 by omega)
    have h31 := size_lt_of_le (d := 30) le_rfl
    have hk := (InOrder.index_lt_size.mp hlt).1
    refine keepHash_simulates hb hlt ?_
    rw [if_neg (by simp), subtreeHashAt, left_coord (show index (k + 1) j < 2 ^ 31 by omega),
      right_coord (show index (k + 1) j < 2 ^ 31 by omega) hk]
    refine .plain_bind hkeep fun parentNode _ => ?_
    refine .read (fun s _ => rfl) ?_
    refine .bind_same (ih (by omega) (child_lt_size hlt (by omega))
      ((below_left k j).trans hb)) fun leftHash _ => ?_
    refine .read (fun s _ => rfl) ?_
    refine .bind_same (ih (by omega) (child_lt_size hlt (by omega))
      ((below_right k j).trans hb)) fun rightHash _ => ?_
    exact .plain_bind hkeep fun input _ => .pure fun s hs => ⟨rfl, hs⟩

/-! ## Good heaps -/

section
variable {suiteOf : ℕ → CiphersuiteImpl} {held : Set TreeRef} {base heap : TreeHeap}
  {ref : TreeRef} {t : RatchetTree} {E : ℕ → ℕ → Prop} {h : ℕ}

@[simp] theorem tree_withEntry (ref r : TreeRef) (entry : Entry) :
    (heap.withEntry ref entry).tree r = heap.tree r := rfl

@[simp] theorem arrays_withEntry (ref : TreeRef) (entry : Entry) :
    (heap.withEntry ref entry).arrays = heap.arrays := rfl

theorem treeHashes_withEntry (ref r : TreeRef) (entry : Entry) :
    (heap.withEntry ref entry).treeHashes r = if r = ref then some entry else heap.treeHashes r :=
  rfl

@[simp] theorem length_withNew (t : RatchetTree) :
    (heap.withNew t).arrays.length = heap.arrays.length + 1 := by
  rw [TreeHeap.withNew, List.length_append, List.length_singleton]

@[simp] theorem length_withTree (ref : TreeRef) (t : RatchetTree) :
    (heap.withTree ref t).arrays.length = heap.arrays.length := List.length_set

theorem treeHashes_withNew (t : RatchetTree) (r : TreeRef) :
    (heap.withNew t).treeHashes r = if r = heap.arrays.length then none else heap.treeHashes r :=
  rfl

theorem tree_withNew_of_lt (hlt : ref < heap.arrays.length) (t : RatchetTree) :
    (heap.withNew t).tree ref = heap.tree ref := by
  unfold TreeHeap.tree TreeHeap.withNew
  rw [List.getD_append _ _ _ _ hlt]

theorem tree_withNew_self (t : RatchetTree) : (heap.withNew t).tree heap.arrays.length = t := by
  unfold TreeHeap.tree TreeHeap.withNew
  rw [List.getD_append_right _ _ _ _ le_rfl, Nat.sub_self]
  rfl

theorem tree_withTree_self (hlt : ref < heap.arrays.length) (t : RatchetTree) :
    (heap.withTree ref t).tree ref = t := by
  unfold TreeHeap.tree TreeHeap.withTree
  rw [List.getD_eq_getElem?_getD, List.getElem?_set_self hlt]
  rfl

theorem tree_withTree_ne {r : TreeRef} (hne : r ≠ ref) (t : RatchetTree) :
    (heap.withTree ref t).tree r = heap.tree r := by
  unfold TreeHeap.tree TreeHeap.withTree
  rw [List.getD_eq_getElem?_getD, List.getD_eq_getElem?_getD, List.getElem?_set_ne hne.symm]

/-- The places of the full tree around an array. -/
def InTree (t : RatchetTree) (k j : ℕ) : Prop := index k j < size (rootLevel t.length)

/-- What is cached is right, and what is cached for a tree someone holds lies in that tree. -/
structure Good (suiteOf : ℕ → CiphersuiteImpl) (held : Set TreeRef) (heap : TreeHeap) : Prop where
  valid : ∀ ref entry, heap.treeHashes ref = some entry →
    ref < heap.arrays.length ∧ ValidHashes (heap.tree ref) (suiteOf entry.h).hash entry.hashes
  alive : ∀ ref ∈ held, ref < heap.arrays.length
  inside : ∀ ref ∈ held, ∀ entry, heap.treeHashes ref = some entry →
    Within entry.hashes (InTree (heap.tree ref))

theorem Good.hashesOf (hgood : Good suiteOf held heap) :
    ValidHashes (heap.tree ref) (suiteOf h).hash (heap.hashesOf ref h) := by
  unfold TreeHeap.hashesOf
  cases hentry : heap.treeHashes ref with
  | none =>
    intro n v hv
    cases hv
  | some entry =>
    dsimp only
    split_ifs with hh
    · exact hh ▸ (hgood.valid ref entry hentry).2
    · intro n v hv
      cases hv

theorem within_hashesOf (hin : ∀ entry, heap.treeHashes ref = some entry → Within entry.hashes E) :
    Within (heap.hashesOf ref h) E := by
  intro k j v hv
  unfold TreeHeap.hashesOf at hv
  cases hentry : heap.treeHashes ref with
  | none =>
    rw [hentry] at hv
    cases hv
  | some entry =>
    rw [hentry] at hv
    dsimp only at hv
    split_ifs at hv
    exact hin entry hentry k j v hv

theorem Good.withEntry {entry : Entry} (hgood : Good suiteOf held heap)
    (hlt : ref < heap.arrays.length)
    (hvalid : ValidHashes (heap.tree ref) (suiteOf entry.h).hash entry.hashes)
    (hin : ref ∈ held → Within entry.hashes (InTree (heap.tree ref))) :
    Good suiteOf held (heap.withEntry ref entry) where
  valid r e he := by
    rw [treeHashes_withEntry] at he
    split_ifs at he with hr
    · obtain rfl := Option.some.inj he
      subst hr
      exact ⟨hlt, hvalid⟩
    · exact hgood.valid r e he
  alive := hgood.alive
  inside r hr e he := by
    rw [treeHashes_withEntry] at he
    split_ifs at he with heq
    · obtain rfl := Option.some.inj he
      subst heq
      exact hin hr
    · exact hgood.inside r hr e he

theorem Good.withNew (hgood : Good suiteOf held heap) (t : RatchetTree) :
    Good suiteOf held (heap.withNew t) where
  valid r e he := by
    rw [treeHashes_withNew] at he
    split_ifs at he
    obtain ⟨hlt, hvalid⟩ := hgood.valid r e he
    rw [tree_withNew_of_lt hlt, length_withNew]
    exact ⟨Nat.lt_succ_of_lt hlt, hvalid⟩
  alive r hr := by
    rw [length_withNew]
    exact Nat.lt_succ_of_lt (hgood.alive r hr)
  inside r hr e he := by
    have hlt := hgood.alive r hr
    rw [treeHashes_withNew] at he
    split_ifs at he
    rw [tree_withNew_of_lt hlt]
    exact hgood.inside r hr e he

/-- An array nobody holds yet is written where nothing is cached. -/
theorem Good.withTree (hgood : Good suiteOf held heap) (hheld : ref ∉ held)
    (hlt : ref < heap.arrays.length)
    (hvalid : ∀ entry, heap.treeHashes ref = some entry →
      ValidHashes t (suiteOf entry.h).hash entry.hashes) :
    Good suiteOf held (heap.withTree ref t) where
  valid r e he := by
    obtain ⟨hr, hv⟩ := hgood.valid r e he
    refine ⟨by rwa [length_withTree], ?_⟩
    by_cases heq : r = ref
    · subst heq
      rw [tree_withTree_self hlt]
      exact hvalid e he
    · rw [tree_withTree_ne heq]
      exact hv
  alive r hr := by
    rw [length_withTree]
    exact hgood.alive r hr
  inside r hr e he := by
    have hne : r ≠ ref := fun heq => hheld (heq ▸ hr)
    rw [tree_withTree_ne hne]
    exact hgood.inside r hr e he

variable (ref h) in
/-- A hash is returned as it is computed afresh. What is added to the cache lies below it. -/
theorem exec_treeHash {k j : ℕ} (hgood : Good suiteOf held heap) (hlt : index k j < size 30) :
    ∃ hashes, exec (treeHash suiteOf ref (coord k j) h) heap =
        (WebcryptoMls.treeHash (heap.tree ref) (coord k j) (suiteOf h).hash,
          heap.withEntry ref { h := h, hashes := hashes }) ∧
      Filling (heap.tree ref) (suiteOf h).hash (heap.hashesOf ref h) k j hashes := by
  have hf : k < 33 := by
    have := (InOrder.index_lt_size.mp hlt).1
    omega
  have hstart : Filling (heap.tree ref) (suiteOf h).hash (heap.hashesOf ref h) k j
      (heap.hashesOf ref h) := ⟨hgood.hashesOf, fun _ _ _ hv => .inl hv⟩
  obtain ⟨hok, herror⟩ :=
    subtreeHash_simulates k hf hlt (InOrder.below_refl k j) (heap.hashesOf ref h) hstart
  rw [treeHash_coord hlt]
  cases hash : subtreeHashAt (slot (heap.tree ref)) (suiteOf h).hash k j with
  | ok x =>
    obtain ⟨b, hashes, hexec, rfl, hfill⟩ := hok x hash
    refine ⟨hashes, ?_, hfill⟩
    unfold treeHash
    rw [exec_bind_ok (exec_get heap), hexec]
    rfl
  | error e =>
    obtain ⟨hashes, hexec, hfill⟩ := herror e hash
    refine ⟨hashes, ?_, hfill⟩
    unfold treeHash
    rw [exec_bind_ok (exec_get heap), hexec]
    rfl

/-! ## Calls that work on one array -/

/-- The heap is good, and the arrays there were are as they were. -/
structure Sound (suiteOf : ℕ → CiphersuiteImpl) (held : Set TreeRef) (base heap : TreeHeap) :
    Prop where
  good : Good suiteOf held heap
  kept : base.arrays <+: heap.arrays

/-- The array `ref` holds `t`, and what is cached for it lies in `E`. -/
structure Tracks (suiteOf : ℕ → CiphersuiteImpl) (held : Set TreeRef) (base : TreeHeap)
    (ref : TreeRef) (t : RatchetTree) (E : ℕ → ℕ → Prop) (heap : TreeHeap) : Prop
    extends Sound suiteOf held base heap where
  alive : ref < heap.arrays.length
  tree : heap.tree ref = t
  within : ∀ entry, heap.treeHashes ref = some entry → Within entry.hashes E

theorem treeHash_simulates {k j : ℕ} (hE : ∀ k j, E k j → InTree t k j)
    (hlt : index k j < size 30) (hbelow : ∀ k' j', Below k' j' k j → E k' j') :
    Simulates (Sound suiteOf held base) (Tracks suiteOf held base ref t E)
      (treeHash suiteOf ref (coord k j) h) (WebcryptoMls.treeHash t (coord k j) (suiteOf h).hash)
      fun x b s => b = x ∧ Tracks suiteOf held base ref t E s := by
  intro s hs
  obtain ⟨hashes, hexec, hfill⟩ := exec_treeHash ref h hs.good hlt
  have hin : Within hashes E := fun k' j' v hv =>
    (hfill.added k' j' v hv).elim (within_hashesOf hs.within k' j' v) (hbelow k' j')
  have hgood : Good suiteOf held (s.withEntry ref { h := h, hashes := hashes }) := by
    refine hs.good.withEntry hs.alive hfill.valid fun _ => ?_
    rw [hs.tree]
    exact hin.mono hE
  have htracks : Tracks suiteOf held base ref t E (s.withEntry ref { h := h, hashes := hashes }) := by
    refine ⟨⟨hgood, hs.kept⟩, hs.alive, hs.tree, fun entry hentry => ?_⟩
    rw [treeHashes_withEntry, if_pos rfl] at hentry
    rw [← Option.some.inj hentry]
    exact hin
  rw [hs.tree] at hexec
  refine ⟨fun x hx => ⟨x, _, ?_, rfl, htracks⟩, fun e he => ⟨_, ?_, htracks.toSound⟩⟩
  · rw [hexec, hx]
  · rw [hexec, he]

theorem exec_readTree (ref : TreeRef) (s : TreeHeap) :
    exec (readTree ref) s = (.ok (s.tree ref), s) := rfl

theorem exec_newTree (t : RatchetTree) (s : TreeHeap) :
    exec (newTree t) s = (.ok s.arrays.length, s.withNew t) := rfl

theorem readTree_tracks {α β : Type} {f : RatchetTree → HeapM β} {a : Except MlsError α}
    {Q : α → β → TreeHeap → Prop}
    (h : Simulates (Sound suiteOf held base) (Tracks suiteOf held base ref t E) (f t) a Q) :
    Simulates (Sound suiteOf held base) (Tracks suiteOf held base ref t E) (readTree ref >>= f) a
      Q :=
  .read (fun s hs => by rw [exec_readTree, hs.tree]) h

theorem Tracks.withNew (hs : Tracks suiteOf held base ref t E heap) (t' : RatchetTree) :
    Tracks suiteOf held base ref t E (heap.withNew t') where
  good := hs.good.withNew t'
  kept := hs.kept.trans (List.prefix_append ..)
  alive := by
    rw [length_withNew]
    exact Nat.lt_succ_of_lt hs.alive
  tree := (tree_withNew_of_lt hs.alive t').trans hs.tree
  within entry hentry := by
    rw [treeHashes_withNew] at hentry
    split_ifs at hentry
    exact hs.within entry hentry

/-- The array the original sibling is hashed in is the array itself, or one nobody holds. -/
structure Reads (suiteOf : ℕ → CiphersuiteImpl) (held : Set TreeRef) (base : TreeHeap)
    (ref : TreeRef) (t : RatchetTree) (E : ℕ → ℕ → Prop) (original : RatchetTree)
    (originalRef : TreeRef) (heap : TreeHeap) : Prop
    extends Tracks suiteOf held base ref t E heap where
  read : originalRef = ref ∧ original = t ∨
    originalRef ∉ held ∧ originalRef ≠ ref ∧ originalRef < heap.arrays.length ∧
      heap.tree originalRef = original

theorem originalTree_simulates (unmerged : List ℕ) :
    Simulates (Sound suiteOf held base) (Tracks suiteOf held base ref t E)
      (originalTree ref unmerged) (WebcryptoMls.originalTree t unmerged)
      (Reads suiteOf held base ref t E) := by
  unfold originalTree WebcryptoMls.originalTree
  refine .ite (fun _ => .pure fun s hs => ⟨hs, .inl ⟨rfl, rfl⟩⟩) fun _ => readTree_tracks ?_
  refine .plain_then (fun s hs => hs.toSound) fun original _ s hs => ?_
  refine ⟨fun x hx => ⟨s.arrays.length, s.withNew original, exec_newTree original s, ?_⟩,
    fun e he => (by cases he)⟩
  rw [← Except.ok.inj hx]
  refine ⟨hs.withNew original, .inr ⟨fun hin => ?_, hs.alive.ne', ?_, tree_withNew_self original⟩⟩
  · exact lt_irrefl _ (hs.good.alive _ hin)
  · rw [length_withNew]
    exact Nat.lt_succ_self _

theorem treeHash_reads {original : RatchetTree} {originalRef : TreeRef} {k j : ℕ}
    (hE : ∀ k j, E k j → InTree t k j) (hlt : index k j < size 30)
    (hbelow : ∀ k' j', Below k' j' k j → E k' j') :
    Simulates (Sound suiteOf held base) (Reads suiteOf held base ref t E original originalRef)
      (treeHash suiteOf originalRef (coord k j) h)
      (WebcryptoMls.treeHash original (coord k j) (suiteOf h).hash)
      fun x b s => b = x ∧ Tracks suiteOf held base ref t E s := by
  intro s hs
  obtain ⟨rfl, rfl⟩ | ⟨hheld, hne, halive, rfl⟩ := hs.read
  · exact treeHash_simulates hE hlt hbelow s hs.toTracks
  obtain ⟨hashes, hexec, hfill⟩ := exec_treeHash originalRef h hs.good hlt
  have htracks : Tracks suiteOf held base ref t E
      (s.withEntry originalRef { h := h, hashes := hashes }) := by
    refine ⟨⟨hs.good.withEntry halive hfill.valid fun hin => (hheld hin).elim, hs.kept⟩, hs.alive,
      hs.tree, fun entry hentry => ?_⟩
    rw [treeHashes_withEntry, if_neg hne.symm] at hentry
    exact hs.within entry hentry
  refine ⟨fun x hx => ⟨x, _, ?_, rfl, htracks⟩, fun e he => ⟨_, ?_, htracks.toSound⟩⟩
  · rw [hexec, hx]
  · rw [hexec, he]

/-- A parent hash of a node above leaf `i` hashes a subtree beside the leaf's path. -/
theorem calculateParentHash_simulates {i k : ℕ} (hw : Walkable t.length)
    (hE : ∀ k j, E k j → InTree t k j) (hi : i < 2 ^ rootLevel t.length)
    (hk : k ≤ rootLevel t.length)
    (hside : ∀ m, k ≤ m → m < rootLevel t.length → ∀ k' j', Below k' j' m (sib (i / 2 ^ m)) →
      E k' j') :
    Simulates (Sound suiteOf held base) (Tracks suiteOf held base ref t E)
      (calculateParentHash suiteOf ref (coord k (i / 2 ^ k)) h)
      (WebcryptoMls.calculateParentHash t (coord k (i / 2 ^ k)) (suiteOf h).hash)
      fun x b s => b = x ∧ Tracks suiteOf held base ref t E s := by
  have hkeep : ∀ s, Tracks suiteOf held base ref t E s → Sound suiteOf held base s :=
    fun s hs => hs.toSound
  unfold calculateParentHash WebcryptoMls.calculateParentHash
  refine readTree_tracks ?_
  refine .ite (fun _ => .pure fun s hs => ⟨rfl, hs⟩) fun hroot => ?_
  rw [hw.root_eq] at hroot
  have hkd : k < rootLevel t.length := by
    refine lt_of_le_of_ne hk fun heq => hroot ?_
    rw [heq, div_two_pow_eq_zero hi]
  refine .plain_bind hkeep fun a ha => ?_
  obtain ⟨m, hkm, hmd, rfl⟩ :=
    hw.findFirstNonBlankAncestor_eq_ok hkd (div_two_pow_lt hk hi) ha
  refine .ite (fun _ => .pure fun s hs => ⟨rfl, hs⟩) fun _ => ?_
  have habove : index (m + 1) (i / 2 ^ k / 2 ^ (m + 1 - k)) < size 30 := by
    rw [div_two_pow_sub (by omega)]
    exact lt_of_lt_of_le (ancestor_lt_size hmd hi) hw.size_le
  have hsib : index m (sib (i / 2 ^ m)) < size 30 :=
    lt_of_lt_of_le (sibling_lt_size hmd hi) hw.size_le
  rw [siblingBelow_coord hkm habove, div_two_pow_sub hkm]
  refine .read (fun s _ => rfl) ?_
  rw [ok_bind]
  cases nodeAt t (coord (m + 1) (i / 2 ^ k / 2 ^ (m + 1 - k))) with
  | none => exact .throw hkeep
  | some node =>
    cases node with
    | leaf l => exact .throw hkeep
    | parent p =>
      refine (originalTree_simulates p.unmergedLeaves).bind fun original originalRef _ => ?_
      refine .bind_same (treeHash_reads hE hsib (hside m hkm hmd)) fun s _ => ?_
      exact .plain_bind hkeep fun input _ => .pure fun s hs => ⟨rfl, hs⟩

/-! ## Seeding and writing a new array -/

/-- The places of a tree that lie neither at leaf `i` nor above it. -/
def Beside (i : ℕ) (t : RatchetTree) (k j : ℕ) : Prop := OffPath i k j ∧ InTree t k j

theorem inTree_congr {t' : RatchetTree} (hlen : t'.length = t.length) : InTree t' = InTree t := by
  unfold InTree
  rw [hlen]

theorem beside_congr {t' : RatchetTree} {i : ℕ} (hlen : t'.length = t.length) :
    Beside i t' = Beside i t := by
  unfold Beside
  rw [inTree_congr hlen]

theorem beside_sibling {i : ℕ} (hi : i < 2 ^ rootLevel t.length) {k : ℕ} :
    ∀ m, k ≤ m → m < rootLevel t.length → ∀ k' j', Below k' j' m (sib (i / 2 ^ m)) →
      Beside i t k' j' :=
  fun _ _ hm _ _ hb => ⟨not_below_sibling hb, hb.index_lt_size (sibling_lt_size hm hi)⟩

theorem ValidHashes.differsOn {t' : RatchetTree} {i : ℕ} {hash : Hash} {hashes : Hashes}
    (hv : ValidHashes t hash hashes) (hdiff : DiffersOn i t t') (hin : Within hashes (OffPath i)) :
    ValidHashes t' hash hashes := by
  intro n v hn
  obtain ⟨k, j, rfl, hlt, hhash⟩ := hv n v hn
  exact ⟨k, j, rfl, hlt, (hdiff.subtreeHashAt_eq (hin k j v hn) hash).trans hhash⟩

theorem Tracks.mono {E' : ℕ → ℕ → Prop} (hs : Tracks suiteOf held base ref t E heap)
    (hE : ∀ k j, E k j → E' k j) : Tracks suiteOf held base ref t E' heap where
  toSound := hs.toSound
  alive := hs.alive
  tree := hs.tree
  within entry hentry := (hs.within entry hentry).mono hE

theorem tree_of_kept {r : TreeRef} (hkept : base.arrays <+: heap.arrays)
    (hr : r < base.arrays.length) : heap.tree r = base.tree r := by
  obtain ⟨rest, hrest⟩ := hkept
  unfold TreeHeap.tree
  rw [← hrest, List.getD_append _ _ _ _ hr]

theorem Good.not_held (hbase : Good suiteOf held base) (hfresh : base.arrays.length ≤ ref) :
    ref ∉ held := fun hin => absurd (hbase.alive ref hin) (Nat.not_lt.mpr hfresh)

theorem of_set_eq_some {hashes : Hashes} {m n : ℤ} {v : Bytes}
    (h : hashes.set m none n = some v) : n ≠ m ∧ hashes n = some v := by
  unfold Hashes.set at h
  split_ifs at h with hm
  exact ⟨hm, h⟩

theorem of_foldl_set_eq_some {ns : List ℤ} {hashes : Hashes} {n : ℤ} {v : Bytes}
    (h : ns.foldl (fun hashes nodeIndex => hashes.set nodeIndex none) hashes n = some v) :
    n ∉ ns ∧ hashes n = some v := by
  induction ns generalizing hashes with
  | nil => exact ⟨List.not_mem_nil, h⟩
  | cons m ns ih =>
    obtain ⟨hmem, h⟩ := ih h
    obtain ⟨hne, h⟩ := of_set_eq_some h
    exact ⟨fun hc => (List.mem_cons.mp hc).elim hne hmem, h⟩

theorem dropPath_within {hashes dropped : Hashes} {i : ℕ} (hw : Walkable t.length)
    (hin : Within hashes (InTree t)) (h : dropPath hashes (leafWidth t.length) i = .ok dropped) :
    Within dropped (Beside i t) ∧ ∀ n v, dropped n = some v → hashes n = some v := by
  unfold dropPath at h
  rw [leafToNodeIndex_eq] at h
  obtain ⟨path, hpath, h⟩ := bind_eq_ok.mp h
  obtain ⟨hi, rfl⟩ := hw.directPath_eq_ok hpath
  obtain rfl := Except.ok.inj h
  refine ⟨fun k j v hv => ?_, fun n v hn => (of_set_eq_some (of_foldl_set_eq_some hn).2).2⟩
  obtain ⟨hmem, hv⟩ := of_foldl_set_eq_some hv
  obtain ⟨h0, hv⟩ := of_set_eq_some hv
  have htree := hin k j v hv
  refine ⟨fun heq => ?_, htree⟩
  subst heq
  cases k with
  | zero => exact h0 (by rw [pow_zero, Nat.div_one])
  | succ m =>
    have hm := (InOrder.index_lt_size.mp htree).1
    exact hmem (List.mem_map.mpr ⟨m, List.mem_range.mpr hm, rfl⟩)

/-- What is carried to a tree that differs on a path is what is cached beside the path. -/
theorem carryTreeHashes_simulates {t' : RatchetTree} {newRef : TreeRef} {i : ℕ} {path : List ℤ}
    (hbase : Good suiteOf held base) (hheld : ref ∈ held) (hw : Walkable (base.tree ref).length)
    (hfresh : base.arrays.length ≤ newRef)
    (hdiff : t'.length = (base.tree ref).length → DiffersOn i (base.tree ref) t')
    (hpath : directPath (coord 0 i) (leafWidth (base.tree ref).length) = .ok path) :
    Simulates (Sound suiteOf held base) (Tracks suiteOf held base newRef t' fun _ _ => False)
      (carryTreeHashes ref newRef [i]) (.ok PUnit.unit)
      fun _ _ s => Tracks suiteOf held base newRef t' (Beside i t') s := by
  unfold carryTreeHashes
  refine .get fun s hs => ?_
  have htree : s.tree ref = base.tree ref := tree_of_kept hs.kept (hbase.alive ref hheld)
  have hsame : Tracks suiteOf held base newRef t' (Beside i t') s := hs.mono fun _ _ hf => hf.elim
  cases hentry : s.treeHashes ref with
  | none =>
    refine .pure ?_
    rintro s' rfl
    exact hsame
  | some entry =>
    dsimp only
    rw [hs.tree, htree]
    by_cases hlen : (base.tree ref).length = t'.length
    swap
    · rw [if_pos hlen]
      refine .pure ?_
      rintro s' rfl
      exact hsame
    rw [if_neg (not_not.mpr hlen), List.foldlM_cons]
    obtain ⟨dropped, hdropped⟩ :
        ∃ dropped, dropPath entry.hashes (leafWidth t'.length) i = .ok dropped := by
      unfold dropPath
      dsimp only
      rw [leafToNodeIndex_eq, ← hlen, hpath]
      exact ⟨_, rfl⟩
    rw [hdropped]
    refine .read (fun s _ => rfl) ?_
    rintro s' rfl
    obtain ⟨hin, hsub⟩ := dropPath_within (hlen ▸ hw)
      (inTree_congr hlen.symm ▸ htree ▸ hs.good.inside ref hheld entry hentry) hdropped
    have hvalid : ValidHashes (base.tree ref) (suiteOf entry.h).hash dropped := by
      intro n v hn
      exact htree ▸ (hs.good.valid ref entry hentry).2 n v (hsub n v hn)
    refine ⟨fun x _ => ⟨⟨⟩, _, rfl, ?_⟩, fun e he => (by cases he)⟩
    refine ⟨⟨hs.good.withEntry hs.alive ?_ fun hc => (hbase.not_held hfresh hc).elim, hs.kept⟩,
      hs.alive, hs.tree, fun e he => ?_⟩
    · rw [hs.tree]
      exact hvalid.differsOn (hdiff hlen.symm) fun k j v hv => (hin k j v hv).1
    · rw [treeHashes_withEntry, if_pos rfl] at he
      rw [← Option.some.inj he]
      exact hin

variable (heap ref) in
/-- Where the walk throws, it throws here already, or there is nothing to carry. -/
theorem exec_carryTreeHashes_error (newRef : TreeRef) (i : ℕ) {e : MlsError}
    (hlen : (heap.tree ref).length = (heap.tree newRef).length)
    (hpath : directPath (coord 0 i) (leafWidth (heap.tree ref).length) = .error e) :
    exec (carryTreeHashes ref newRef [i]) heap = (.error e, heap) ∨
      exec (carryTreeHashes ref newRef [i]) heap = (.ok ⟨⟩, heap) := by
  unfold carryTreeHashes
  rw [exec_bind_ok (exec_get heap)]
  cases heap.treeHashes ref with
  | none => exact .inr rfl
  | some entry =>
    have hdrop : dropPath entry.hashes (leafWidth (heap.tree newRef).length) i = .error e := by
      unfold dropPath
      dsimp only
      rw [leafToNodeIndex_eq, ← hlen, hpath]
      rfl
    dsimp only
    rw [if_neg (not_not.mpr hlen), List.foldlM_cons, hdrop]
    exact .inl rfl

/-- A new array is written at a leaf and above it, where nothing is cached. -/
theorem writeTree_simulates {t' : RatchetTree} {i : ℕ} (hbase : Good suiteOf held base)
    (hfresh : base.arrays.length ≤ ref) (hdiff : DiffersOn i t t') :
    Simulates (Sound suiteOf held base) (Tracks suiteOf held base ref t (Beside i t))
      (writeTree ref t') (.ok PUnit.unit)
      fun _ _ s => Tracks suiteOf held base ref t' (Beside i t') s := by
  refine .change fun s hs => ?_
  refine ⟨⟨hs.good.withTree (hbase.not_held hfresh) hs.alive fun entry hentry => ?_, ?_⟩, ?_,
    tree_withTree_self hs.alive t', ?_⟩
  · exact ValidHashes.differsOn (hs.tree ▸ (hs.good.valid ref entry hentry).2) hdiff
      fun k j v hv => (hs.within entry hentry k j v hv).1
  · obtain ⟨rest, hrest⟩ := hs.kept
    refine ⟨rest.set (ref - base.arrays.length) t', ?_⟩
    rw [TreeHeap.withTree, ← hrest, List.set_append_right _ _ hfresh]
  · rw [length_withTree]
    exact hs.alive
  · rw [beside_congr hdiff.length]
    exact hs.within

end

end TreeCache
end WebcryptoMls
