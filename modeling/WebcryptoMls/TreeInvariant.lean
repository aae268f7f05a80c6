import WebcryptoMls.PathWrites

/-!
# The invariant of reachable trees

Leaves are added at the leftmost blank place, and a leaf listed as unmerged
stays where it is until every node that lists it is blanked or rewritten. From
this follow the order of the unmerged leaves and that a non-blank parent has a
non-blank leaf below each of its children, which is why no operation has to
look at the part of a path it does not write.
-/
namespace WebcryptoMls
open InOrder (index size Below)

/-- What holds of the nodes of every reachable tree. -/
structure TreeInvariant (t : RatchetTree) : Prop where
  typed : Typed t
  sorted : ∀ k j p, slot t k j = some (.parent p) → p.unmergedLeaves.Pairwise (· < ·)
  unmerged : ∀ k j p u, slot t k j = some (.parent p) → u ∈ p.unmergedLeaves →
    u / 2 ^ k = j ∧ slot t 0 u ≠ none
  between : ∀ k j p u k' q, slot t k j = some (.parent p) → u ∈ p.unmergedLeaves → k' ≤ k →
    slot t k' (u / 2 ^ k') = some (.parent q) → u ∈ q.unmergedLeaves
  /-- No leaf below the parent and left of an unmerged one is blank. -/
  filled : ∀ k j p u v, slot t k j = some (.parent p) → u ∈ p.unmergedLeaves → v < u →
    v / 2 ^ k = j → slot t 0 v ≠ none
  covered : ∀ k j n c, slot t (k + 1) j = some n → c / 2 = j →
    ∃ i, i / 2 ^ k = c ∧ slot t 0 i ≠ none

/-- The part of it that speaks of the unmerged leaves alone. -/
structure Represented (t : RatchetTree) : Prop where
  typed : Typed t
  sorted : ∀ k j p, slot t k j = some (.parent p) → p.unmergedLeaves.Pairwise (· < ·)
  unmerged : ∀ k j p u, slot t k j = some (.parent p) → u ∈ p.unmergedLeaves →
    u / 2 ^ k = j ∧ slot t 0 u ≠ none
  between : ∀ k j p u k' q, slot t k j = some (.parent p) → u ∈ p.unmergedLeaves → k' ≤ k →
    slot t k' (u / 2 ^ k') = some (.parent q) → u ∈ q.unmergedLeaves

theorem TreeInvariant.represented {t : RatchetTree} (ht : TreeInvariant t) : Represented t :=
  ⟨ht.typed, ht.sorted, ht.unmerged, ht.between⟩

/-- No parent stands over an empty side. -/
def Covered (t : RatchetTree) : Prop :=
  ∀ k j n c, slot t (k + 1) j = some n → c / 2 = j → ∃ i, i / 2 ^ k = c ∧ slot t 0 i ≠ none

theorem TreeInvariant.isCovered {t : RatchetTree} (ht : TreeInvariant t) : Covered t := ht.covered

/-- The array of a reachable tree: a full tree whose right half is not blank. -/
structure Grown (d : ℕ) (t : RatchetTree) : Prop where
  depth : d ≤ 31
  length : t.length = size d
  right : d = 0 ∨ ∃ i, 2 ^ (d - 1) ≤ i ∧ slot t 0 i ≠ none

/-! ## One leaf -/

theorem slot_singleton (n : Node) (k j : ℕ) :
    slot [some n] k j = if k = 0 ∧ j = 0 then some n else none := by
  rw [slot_eq_getElem?]
  by_cases h : k = 0 ∧ j = 0
  · obtain ⟨rfl, rfl⟩ := h
    rfl
  · have hi : index k j ≠ 0 := by
      intro h0
      have : index k j = index 0 0 := by rw [h0, InOrder.index_zero]
      exact h (InOrder.index_inj this)
    rw [if_neg h, List.getElem?_eq_none (by simp; omega)]
    rfl

theorem treeInvariant_singleton (l : LeafNode) : TreeInvariant [some (.leaf l)] := by
  have hparent : ∀ k j p, slot [some (.leaf l)] k j ≠ some (.parent p) := by
    intro k j p h
    rw [slot_singleton] at h
    split_ifs at h
    simp at h
  have hup : ∀ k j n, slot [some (.leaf l)] (k + 1) j ≠ some n := by
    intro k j n h
    rw [slot_singleton, if_neg (by omega)] at h
    simp at h
  refine ⟨⟨fun i n h => ?_, fun k j n h => absurd h (hup k j n)⟩,
    fun k j p h => absurd h (hparent k j p), fun k j p u h => absurd h (hparent k j p),
    fun k j p u k' q h => absurd h (hparent k j p), fun k j p u v h => absurd h (hparent k j p),
    fun k j n c h => absurd h (hup k j n)⟩
  rw [slot_singleton] at h
  split_ifs at h
  exact ⟨l, (Option.some.inj h).symm⟩

theorem grown_singleton (n : Node) : Grown 0 [some n] := ⟨by omega, rfl, .inl rfl⟩

/-! ## Adding a leaf -/

/-- What an Add writes, as `addLeafNode_spec` gives it. -/
structure Added (t t' : RatchetTree) (i : ℕ) (l : LeafNode) : Prop where
  blank : slot t 0 i = none
  before : ∀ i' < i, slot t 0 i' ≠ none
  slot : ∀ k j, slot t' k j = if k = 0 ∧ j = i then some (.leaf l)
    else if i / 2 ^ k = j then (slot t k j).map (Node.addUnmerged i) else slot t k j

section
variable {t t' : RatchetTree} {i : ℕ} {l : LeafNode}

theorem Added.leaf (h : Added t t' i l) (v : ℕ) :
    WebcryptoMls.slot t' 0 v = if v = i then some (.leaf l) else WebcryptoMls.slot t 0 v := by
  rw [h.slot]
  by_cases hv : v = i
  · simp [hv]
  · rw [if_neg (by simpa using hv), if_neg hv, if_neg (by simpa using fun h => hv h.symm)]

theorem Added.leaf_ne_none (h : Added t t' i l) {v : ℕ} (hv : WebcryptoMls.slot t 0 v ≠ none) :
    WebcryptoMls.slot t' 0 v ≠ none := by
  rw [h.leaf]
  split_ifs
  · simp
  · exact hv

/-- A parent of the new tree is one of the old tree, with the leaf appended where
it is above the leaf. -/
theorem Added.parent (h : Added t t' i l) {k j : ℕ} {p' : ParentNode}
    (hp : WebcryptoMls.slot t' k j = some (.parent p')) :
    ∃ p, WebcryptoMls.slot t k j = some (.parent p) ∧ p'.hpkePublicKey = p.hpkePublicKey ∧
      p'.parentHash = p.parentHash ∧
      p'.unmergedLeaves = if i / 2 ^ k = j then p.unmergedLeaves ++ [i] else p.unmergedLeaves := by
  rw [h.slot] at hp
  split_ifs at hp with h0 hj
  · simp at hp
  · obtain ⟨n, hn, hp⟩ := Option.map_eq_some_iff.mp hp
    cases n with
    | leaf l' => simp [Node.addUnmerged] at hp
    | parent p =>
      simp only [Node.addUnmerged, Node.parent.injEq] at hp
      subst hp
      exact ⟨p, hn, rfl, rfl, by rw [if_pos hj]⟩
  · exact ⟨p', hp, rfl, rfl, by rw [if_neg hj]⟩

theorem Added.parent_ne_none (h : Added t t' i l) {k j : ℕ} {n : Node}
    (hn : WebcryptoMls.slot t' (k + 1) j = some n) : ∃ n₀, WebcryptoMls.slot t (k + 1) j = some n₀ := by
  rw [h.slot, if_neg (by omega)] at hn
  split_ifs at hn
  · obtain ⟨n₀, hn₀, -⟩ := Option.map_eq_some_iff.mp hn
    exact ⟨n₀, hn₀⟩
  · exact ⟨n, hn⟩

theorem Added.typed (h : Added t t' i l) (ht : Typed t) : Typed t' where
  leaf v n hn := by
    rw [h.leaf] at hn
    split_ifs at hn
    · exact ⟨l, (Option.some.inj hn).symm⟩
    · exact ht.leaf v n hn
  parent k j n hn := by
    rw [h.slot, if_neg (by omega)] at hn
    split_ifs at hn
    · obtain ⟨n₀, hn₀, rfl⟩ := Option.map_eq_some_iff.mp hn
      obtain ⟨p, rfl⟩ := ht.parent k j n₀ hn₀
      exact ⟨_, rfl⟩
    · exact ht.parent k j n hn

/-- A listed leaf is never the one added, and never to its right. -/
theorem TreeInvariant.unmerged_lt (ht : TreeInvariant t) (h : Added t t' i l) {k j u : ℕ}
    {p : ParentNode} (hp : slot t k j = some (.parent p)) (hu : u ∈ p.unmergedLeaves)
    (hi : i / 2 ^ k = j) : u < i := by
  by_contra hle
  rcases Nat.eq_or_lt_of_le (Nat.not_lt.mp hle) with rfl | hlt
  · exact (ht.unmerged k j p i hp hu).2 h.blank
  · exact ht.filled k j p u i hp hu hlt hi h.blank

theorem TreeInvariant.added (ht : TreeInvariant t) (h : Added t t' i l) : TreeInvariant t' where
  typed := h.typed ht.typed
  sorted k j p' hp' := by
    obtain ⟨p, hp, -, -, hu⟩ := h.parent hp'
    rw [hu]
    split_ifs with hi
    · rw [List.pairwise_append]
      refine ⟨ht.sorted k j p hp, by simp, fun u hu v hv => ?_⟩
      rw [List.mem_singleton.mp hv]
      exact ht.unmerged_lt h hp hu hi
    · exact ht.sorted k j p hp
  unmerged k j p' u hp' hu' := by
    obtain ⟨p, hp, -, -, hu⟩ := h.parent hp'
    rw [hu] at hu'
    have hold : u ∈ p.unmergedLeaves → u / 2 ^ k = j ∧ slot t' 0 u ≠ none := fun hm =>
      ⟨(ht.unmerged k j p u hp hm).1, h.leaf_ne_none (ht.unmerged k j p u hp hm).2⟩
    split_ifs at hu' with hi
    · rcases List.mem_append.mp hu' with hm | hm
      · exact hold hm
      · obtain rfl := List.mem_singleton.mp hm
        exact ⟨hi, by rw [h.leaf]; simp⟩
    · exact hold hu'
  between k j p' u k' q' hp' hu' hk' hq' := by
    obtain ⟨p, hp, -, -, hup⟩ := h.parent hp'
    obtain ⟨q, hq, -, -, huq⟩ := h.parent hq'
    rw [hup] at hu'
    rw [huq]
    have hold : u ∈ p.unmergedLeaves → u ∈ q.unmergedLeaves := fun hm =>
      ht.between k j p u k' q hp hm hk' hq
    split_ifs with hi
    · rw [List.mem_append, List.mem_singleton]
      split_ifs at hu' with hj
      · rw [List.mem_append, List.mem_singleton] at hu'
        exact hu'.imp hold id
      · exact .inl (hold hu')
    · split_ifs at hu' with hj
      · rcases List.mem_append.mp hu' with hm | hm
        · exact hold hm
        · exact absurd (by rw [List.mem_singleton.mp hm]) hi
      · exact hold hu'
  filled k j p' u v hp' hu' hvu hv := by
    obtain ⟨p, hp, -, -, hup⟩ := h.parent hp'
    rw [hup] at hu'
    have hold : u ∈ p.unmergedLeaves → slot t' 0 v ≠ none := fun hm =>
      h.leaf_ne_none (ht.filled k j p u v hp hm hvu hv)
    split_ifs at hu' with hi
    · rcases List.mem_append.mp hu' with hm | hm
      · exact hold hm
      · rw [List.mem_singleton.mp hm] at hvu
        exact h.leaf_ne_none (h.before v hvu)
    · exact hold hu'
  covered k j n c hn hc := by
    obtain ⟨n₀, hn₀⟩ := h.parent_ne_none hn
    obtain ⟨v, hv, hne⟩ := ht.covered k j n₀ c hn₀ hc
    exact ⟨v, hv, h.leaf_ne_none hne⟩

/-! ## Blanking a direct path -/

/-- What an Update and a Remove write: a leaf place and a blank direct path. -/
structure Blanked (t t' : RatchetTree) (i : ℕ) (v : Option LeafNode) : Prop where
  leaf : slot t' 0 i = v.map Node.leaf
  path : ∀ k, slot t' (k + 1) (i / 2 ^ (k + 1)) = none
  off : ∀ k j, i / 2 ^ k ≠ j → slot t' k j = slot t k j

theorem Blanked.parent {v : Option LeafNode} (h : Blanked t t' i v) {k j : ℕ}
    {p : ParentNode} (hp : slot t' k j = some (.parent p)) :
    slot t k j = some (.parent p) ∧ i / 2 ^ k ≠ j := by
  have hne : i / 2 ^ k ≠ j := by
    rintro rfl
    cases k with
    | zero =>
      rw [pow_zero, Nat.div_one, h.leaf] at hp
      cases v <;> simp at hp
    | succ k => rw [h.path] at hp; simp at hp
  exact ⟨by rw [← h.off k j hne, hp], hne⟩

theorem Blanked.leaf_ne {v : Option LeafNode} (h : Blanked t t' i v) {u : ℕ} (hu : u ≠ i) :
    slot t' 0 u = slot t 0 u := h.off 0 u (by simpa using hu.symm)

theorem Covered.blanked (ht : Covered t) {v : Option LeafNode} (h : Blanked t t' i v) :
    Covered t' := by
  intro k j n c hn hc
  have hne : i / 2 ^ (k + 1) ≠ j := by
    rintro rfl
    rw [h.path] at hn
    simp at hn
  obtain ⟨u, hu, hnu⟩ := ht k j n c (by rw [← h.off _ j hne, hn]) hc
  refine ⟨u, hu, ?_⟩
  rwa [h.leaf_ne]
  rintro rfl
  rw [InOrder.div_two_pow_succ, hu] at hne
  exact hne hc

/-- A parent that survives is not above the leaf, so no leaf below it changes. -/
theorem TreeInvariant.blanked (ht : TreeInvariant t) {v : Option LeafNode} (h : Blanked t t' i v) :
    TreeInvariant t' where
  typed := by
    refine ⟨fun u n hn => ?_, fun k j n hn => ?_⟩
    · by_cases hu : u = i
      · subst hu
        rw [h.leaf] at hn
        obtain ⟨l, -, rfl⟩ := Option.map_eq_some_iff.mp hn
        exact ⟨l, rfl⟩
      · exact ht.typed.leaf u n (by rw [← h.leaf_ne hu, hn])
    · by_cases hj : i / 2 ^ (k + 1) = j
      · rw [← hj, h.path] at hn
        simp at hn
      · exact ht.typed.parent k j n (by rw [← h.off _ j hj, hn])
  sorted k j p hp := ht.sorted k j p (h.parent hp).1
  unmerged k j p u hp hu := by
    obtain ⟨hp₀, hne⟩ := h.parent hp
    obtain ⟨hj, hn⟩ := ht.unmerged k j p u hp₀ hu
    refine ⟨hj, ?_⟩
    rwa [h.leaf_ne fun he => hne (by rw [← he, hj])]
  between k j p u k' q hp hu hk' hq :=
    ht.between k j p u k' q (h.parent hp).1 hu hk' (h.parent hq).1
  filled k j p u w hp hu hlt hw := by
    obtain ⟨hp₀, hne⟩ := h.parent hp
    rw [h.leaf_ne fun he => hne (by rw [← he, hw])]
    exact ht.filled k j p u w hp₀ hu hlt hw
  covered := ht.isCovered.blanked h

/-! ## Writing an update path -/

/-- A node below a place of the tree has a non-blank leaf below that place. -/
theorem Covered.exists_leaf (ht : Covered t) {k' j' k j : ℕ} {n : Node}
    (hn : slot t k' j' = some n) (hb : Below k' j' k j) :
    ∃ u, u / 2 ^ k = j ∧ slot t 0 u ≠ none := by
  cases k' with
  | zero =>
    exact ⟨j', InOrder.below_leaf.mp hb, by rw [hn]; simp⟩
  | succ k' =>
    obtain ⟨u, hu, hne⟩ := ht k' j' n (2 * j') hn (by omega)
    refine ⟨u, hb.leaf ?_, hne⟩
    rw [InOrder.div_two_pow_succ, hu]
    omega

theorem Covered.resolution_ne_nil (ht : Covered t) {k j : ℕ} :
    resolutionAt t k j ≠ [] ↔ ∃ u, u / 2 ^ k = j ∧ slot t 0 u ≠ none := by
  rw [Ne, resolutionAt_eq_nil]
  constructor
  · intro h
    push Not at h
    obtain ⟨k', j', hb, hne⟩ := h
    obtain ⟨n, hn⟩ := Option.ne_none_iff_exists'.mp hne
    exact ht.exists_leaf hn hb
  · rintro ⟨u, hu, hne⟩ h
    exact hne (h 0 u (InOrder.below_leaf.mpr hu))

/-- A non-blank node of a direct path is on the filtered direct path. -/
theorem Covered.mem_filteredLevels (ht : Covered t) {d m : ℕ} {n : Node} (hm : m < d)
    (hn : slot t (m + 1) (i / 2 ^ (m + 1)) = some n) : m ∈ filteredLevels t d i := by
  obtain ⟨u, hu, hne⟩ := ht m _ n (sib (i / 2 ^ m)) hn
    (by rw [sib_div_two, InOrder.div_two_pow_succ])
  refine WebcryptoMls.mem_filteredLevels.mpr ⟨hm, fun hnil => hne ?_⟩
  exact resolutionAt_eq_nil.mp hnil 0 u (InOrder.below_leaf.mpr hu)

section
variable {hash : Hash} {d : ℕ} {c : LeafNodeCommit}

theorem PathWritten.leaf_slot (h : PathWritten hash t t' d i c) (v : ℕ) :
    slot t' 0 v = if v = i then some (.leaf c.leaf) else slot t 0 v := by
  by_cases hv : v = i
  · rw [if_pos hv, hv, h.leaf]
  · rw [if_neg hv, h.other 0 v (by simpa using hv) fun m _ => by omega]

theorem PathWritten.leaf_ne_none (h : PathWritten hash t t' d i c) {v : ℕ}
    (hv : slot t 0 v ≠ none) : slot t' 0 v ≠ none := by
  rw [h.leaf_slot]
  split_ifs
  · simp
  · exact hv

/-- Off the direct path nothing is written. -/
theorem PathWritten.off (h : PathWritten hash t t' d i c) {k j : ℕ} (hj : i / 2 ^ k ≠ j) :
    slot t' k j = slot t k j := by
  apply h.other
  · rintro ⟨rfl, rfl⟩
    simp at hj
  · rintro m - ⟨rfl, rfl⟩
    exact hj rfl

/-- On the direct path every node is one the path wrote: there is no non-blank
node the filter leaves out. -/
theorem PathWritten.on (ht : Covered t) (h : PathWritten hash t t' d i c)
    (hlen : t.length = size d) {k : ℕ} {n : Node} (hn : slot t' (k + 1) (i / 2 ^ (k + 1)) = some n) :
    k ∈ filteredLevels t d i ∧ ∃ p, n = .parent p ∧ p.unmergedLeaves = [] ∧
      HashedAt hash t' i (k + 1) p.parentHash := by
  have hmem : k ∈ filteredLevels t d i := by
    by_contra hnot
    rw [h.other _ _ (by omega)] at hn
    · have hk := (InOrder.index_lt_size.mp (hlen ▸ index_lt_of_slot hn)).1
      exact hnot (ht.mem_filteredLevels (by omega) hn)
    · rintro m hm ⟨hk, -⟩
      exact hnot (by rwa [show k = m by omega])
  obtain ⟨p, hp, hu, hh⟩ := h.node k hmem
  exact ⟨hmem, p, by rw [← Option.some.injEq, ← hn, hp], hu, hh⟩

theorem PathWritten.parent (ht : TreeInvariant t) (h : PathWritten hash t t' d i c)
    (hlen : t.length = size d) {k j : ℕ} {p : ParentNode}
    (hp : slot t' k j = some (.parent p)) :
    (i / 2 ^ k = j ∧ p.unmergedLeaves = []) ∨ (i / 2 ^ k ≠ j ∧ slot t k j = some (.parent p)) := by
  by_cases hj : i / 2 ^ k = j
  · refine .inl ⟨hj, ?_⟩
    subst hj
    cases k with
    | zero =>
      rw [pow_zero, Nat.div_one, h.leaf] at hp
      simp at hp
    | succ k =>
      obtain ⟨-, p', hp', hu, -⟩ := h.on ht.isCovered hlen hp
      rw [Node.parent.injEq] at hp'
      rw [hp', hu]
  · exact .inr ⟨hj, by rw [← h.off hj, hp]⟩

theorem TreeInvariant.pathWritten (ht : TreeInvariant t) (hlen : t.length = size d)
    (h : PathWritten hash t t' d i c) : TreeInvariant t' where
  typed := by
    refine ⟨fun u n hn => ?_, fun k j n hn => ?_⟩
    · rw [h.leaf_slot] at hn
      split_ifs at hn
      · exact ⟨c.leaf, (Option.some.inj hn).symm⟩
      · exact ht.typed.leaf u n hn
    · by_cases hj : i / 2 ^ (k + 1) = j
      · subst hj
        obtain ⟨-, p, rfl, -⟩ := h.on ht.isCovered hlen hn
        exact ⟨p, rfl⟩
      · exact ht.typed.parent k j n (by rw [← h.off hj, hn])
  sorted k j p hp := by
    rcases h.parent ht hlen hp with ⟨-, hu⟩ | ⟨-, hp₀⟩
    · rw [hu]
      exact List.Pairwise.nil
    · exact ht.sorted k j p hp₀
  unmerged k j p u hp hu := by
    rcases h.parent ht hlen hp with ⟨-, hnil⟩ | ⟨-, hp₀⟩
    · rw [hnil] at hu
      simp at hu
    · obtain ⟨hj, hn⟩ := ht.unmerged k j p u hp₀ hu
      exact ⟨hj, h.leaf_ne_none hn⟩
  between k j p u k' q hp hu hk' hq := by
    rcases h.parent ht hlen hp with ⟨-, hnil⟩ | ⟨hne, hp₀⟩
    · rw [hnil] at hu
      simp at hu
    · rcases h.parent ht hlen hq with ⟨hj', -⟩ | ⟨-, hq₀⟩
      · -- a node below the parent that is above the committer puts the parent above it
        have hj := (ht.unmerged k j p u hp₀ hu).1
        exact absurd (InOrder.ancestor_of_ancestor hk' hj' |>.trans hj) hne
      · exact ht.between k j p u k' q hp₀ hu hk' hq₀
  filled k j p u v hp hu hlt hv := by
    rcases h.parent ht hlen hp with ⟨-, hnil⟩ | ⟨-, hp₀⟩
    · rw [hnil] at hu
      simp at hu
    · exact h.leaf_ne_none (ht.filled k j p u v hp₀ hu hlt hv)
  covered k j n b hn hb := by
    by_cases hj : i / 2 ^ (k + 1) = j
    · subst hj
      obtain ⟨hmem, -⟩ := h.on ht.isCovered hlen hn
      rw [InOrder.div_two_pow_succ] at hb
      rcases eq_or_eq_sib hb with rfl | rfl
      · exact ⟨i, rfl, by rw [h.leaf]; simp⟩
      · obtain ⟨u, hu, hne⟩ := ht.isCovered.resolution_ne_nil.mp (WebcryptoMls.mem_filteredLevels.mp hmem).2
        exact ⟨u, hu, h.leaf_ne_none hne⟩
    · obtain ⟨u, hu, hne⟩ := ht.covered k j n b (by rw [← h.off hj, hn]) hb
      exact ⟨u, hu, h.leaf_ne_none hne⟩

theorem Grown.pathWritten (hg : Grown d t) (h : PathWritten hash t t' d i c) : Grown d t' where
  depth := hg.depth
  length := h.length
  right := hg.right.imp id fun ⟨v, hv, hne⟩ => ⟨v, hv, h.leaf_ne_none hne⟩

end

end

/-! ## The operations -/

theorem addLeafNode_added {t t' : RatchetTree} {l : LeafNode} {n : ℤ} {d : ℕ} (hg : Grown d t)
    (h : addLeafNode t l = .ok (t', n)) :
    ∃ i d', n = coord 0 i ∧ i < 2 ^ d' ∧ Added t t' i l ∧ Grown d' t' ∧
      (d' = d ∧ d ≤ 30 ∨ d' = d + 1 ∧ i = 2 ^ d) := by
  obtain ⟨i, d', hn, hlen, hd', hi, hsize, hblank, hbefore, hslot⟩ :=
    addLeafNode_spec hg.length hg.depth h
  have hadd : Added t t' i l := ⟨hblank, hbefore, hslot⟩
  refine ⟨i, d', hn, hi, hadd, ⟨hd', hlen, ?_⟩, hsize⟩
  rcases hsize with ⟨rfl, -⟩ | ⟨rfl, rfl⟩
  · exact hg.right.imp id fun ⟨v, hv, hne⟩ => ⟨v, hv, hadd.leaf_ne_none hne⟩
  · exact .inr ⟨2 ^ d, by simp, by rw [hadd.leaf]; simp⟩

theorem updateLeafNode_blanked {t t' : RatchetTree} {l : LeafNode} {i d : ℕ} (hg : Grown d t)
    (h : updateLeafNode t l i = .ok t') : Blanked t t' i (some l) ∧ Grown d t' := by
  obtain ⟨-, hi, hlen, hslot⟩ := updateLeafNode_spec hg.length hg.depth h
  have hb : Blanked t t' i (some l) := by
    refine ⟨by rw [hslot]; simp, fun k => by rw [hslot]; simp, fun k j hj => ?_⟩
    rw [hslot, if_neg, if_neg hj]
    rintro ⟨rfl, rfl⟩
    simp at hj
  refine ⟨hb, hg.depth, hlen, hg.right.imp id fun ⟨v, hv, hne⟩ => ⟨v, hv, ?_⟩⟩
  by_cases hvi : v = i
  · rw [hvi, hb.leaf]
    simp
  · rwa [hb.leaf_ne hvi]

/-- Where no parent is over an empty side, a node in the right half puts a leaf there. -/
theorem Covered.right_leaf {t : RatchetTree} (ht : Covered t) {d k j : ℕ} {n : Node}
    (hn : slot t k j = some n) (hlast : size d ≤ index k j) :
    ∃ i, 2 ^ d ≤ i ∧ slot t 0 i ≠ none := by
  have hs := InOrder.size_add_one d
  rw [pow_succ] at hs
  cases k with
  | zero =>
    rw [InOrder.index_zero] at hlast
    exact ⟨j, by omega, by rw [hn]; simp⟩
  | succ k =>
    obtain ⟨i, hi, hne⟩ := ht k j n (2 * j + 1) hn (by omega)
    refine ⟨i, ?_, hne⟩
    have hidx := InOrder.index_add_one (k + 1) j
    have hmul := Nat.div_mul_le_self i (2 ^ k)
    rw [hi] at hmul
    have e1 : (2 * j + 1) * 2 ^ k * 2 = 2 ^ (k + 1) * (2 * j + 1) := by ring
    omega

theorem removeLeafNode_blanked {t t' : RatchetTree} {i d : ℕ} (ht : Covered t)
    (hg : Grown d t) (h : removeLeafNode t i = .ok t') :
    Blanked t t' i none ∧ ∃ d' ≤ 29, Grown d' t' := by
  obtain ⟨-, hi, d', hd', hlen, hslot, k, j, hkj, hmin⟩ :=
    removeLeafNode_spec hg.length hg.depth h
  have hb : Blanked t t' i none := by
    refine ⟨by rw [hslot]; simp, fun k => by rw [hslot]; simp, fun k j hj => ?_⟩
    rw [hslot, if_neg hj]
  refine ⟨hb, d', hd', by omega, hlen, ?_⟩
  rcases Nat.eq_zero_or_pos d' with rfl | hpos
  · exact .inl rfl
  · obtain ⟨n, hn⟩ := Option.ne_none_iff_exists'.mp hkj
    exact .inr ((ht.blanked hb).right_leaf hn (hmin (d' - 1) (by omega)))

end WebcryptoMls
