import WebcryptoMls.HashBinding
import WebcryptoMls.TreeInvariant

/-!
# Subtrees as they were

Below a parent, take away the leaves it lists as unmerged: what is left is what
was there when its key was set, and stays so for as long as the parent does. So
what is true of a parent and the nodes below it when a path is written, and does
not look at unmerged leaves, is true of it in every later tree.
-/
namespace WebcryptoMls
open InOrder (index size Below)

/-- The nodes without the leaves the parent lists as unmerged. -/
def originalPlaces (t : RatchetTree) (p : ParentNode) : Places :=
  Places.without p.unmergedLeaves (slot t)

theorem originalPlaces_of_nil {t : RatchetTree} {p : ParentNode} (h : p.unmergedLeaves = []) :
    originalPlaces t p = slot t := by
  rw [originalPlaces, h, without_nil]

theorem without_off {removed : List ℕ} {s s' : Places} {k j : ℕ} (h : s' k j = s k j) :
    Places.without removed s' k j = Places.without removed s k j := by
  rw [Places.without, Places.without, h]

/-- A removed leaf that no list names changes nothing else. -/
theorem ParentNode.without_addUnmerged {U : List ℕ} {i : ℕ} {p : ParentNode}
    (hi : i ∉ p.unmergedLeaves) :
    ({ p with unmergedLeaves := p.unmergedLeaves ++ [i] } : ParentNode).without (U ++ [i]) =
      p.without U := by
  simp only [ParentNode.without, ParentNode.mk.injEq, true_and, List.filter_append]
  have h1 : [i].filter (fun l => !(U ++ [i]).contains l) = [] := by simp
  rw [h1, List.append_nil]
  apply List.filter_congr
  intro l hl
  have : l ≠ i := fun h => hi (h ▸ hl)
  simp [this]

theorem ParentNode.without_append {U : List ℕ} {i : ℕ} {p : ParentNode}
    (hi : i ∉ p.unmergedLeaves) : p.without (U ++ [i]) = p.without U := by
  simp only [ParentNode.without, ParentNode.mk.injEq, true_and]
  apply List.filter_congr
  intro l hl
  have : l ≠ i := fun h => hi (h ▸ hl)
  simp [this]

section
variable {t t' : RatchetTree} {i : ℕ}

/-- An Add changes nothing below a parent but leaves the parent lists. -/
theorem originalPlaces_added {l : LeafNode} (ht : TreeInvariant t) (h : Added t t' i l)
    {m q : ℕ} {p' : ParentNode} (hp' : slot t' (m + 1) q = some (.parent p')) :
    ∃ p, slot t (m + 1) q = some (.parent p) ∧ p'.hpkePublicKey = p.hpkePublicKey ∧
      p'.parentHash = p.parentHash ∧ ∀ k j, Below k j (m + 1) q →
        originalPlaces t' p' k j = originalPlaces t p k j := by
  obtain ⟨p, hp, hkey, hph, hu⟩ := h.parent hp'
  refine ⟨p, hp, hkey, hph, fun k j hb => ?_⟩
  have hnot : ∀ k j pp, slot t k j = some (.parent pp) → i ∉ pp.unmergedLeaves := by
    intro k j pp hpp hi
    exact (ht.unmerged k j pp i hpp hi).2 h.blank
  by_cases hi : i / 2 ^ (m + 1) = q
  · rw [if_pos hi] at hu
    simp only [originalPlaces, Places.without, hu]
    by_cases h0 : k = 0 ∧ j = i
    · obtain ⟨rfl, rfl⟩ := h0
      rw [if_pos ⟨rfl, by simp⟩, h.blank]
      split_ifs <;> rfl
    · have hmem : (k = 0 ∧ j ∈ p.unmergedLeaves ++ [i]) ↔ k = 0 ∧ j ∈ p.unmergedLeaves := by
        rw [List.mem_append, List.mem_singleton]
        tauto
      rw [h.slot, if_neg h0, if_congr hmem rfl rfl]
      split_ifs with hrem hpath
      · rfl
      · cases hn : slot t k j with
        | none => rfl
        | some n =>
          cases n with
          | leaf l' => rfl
          | parent pp =>
            simp only [Option.map_some, Node.addUnmerged, Node.without,
              ParentNode.without_addUnmerged (hnot k j pp hn)]
      · cases hn : slot t k j with
        | none => rfl
        | some n =>
          cases n with
          | leaf l' => rfl
          | parent pp =>
            simp only [Option.map_some, Node.without, ParentNode.without_append (hnot k j pp hn)]
  · rw [if_neg hi] at hu
    have hoff : ¬ i / 2 ^ k = j := fun h => hi (hb.leaf h)
    simp only [originalPlaces, hu]
    apply without_off
    rw [h.slot, if_neg, if_neg hoff]
    rintro ⟨rfl, rfl⟩
    simp at hoff

end

/-! ## Resolutions of one node -/

/-- The subtree `(m, c)` holds nothing outside the subtree of `(k, j)`, and the node
there has no unmerged leaves. -/
structure SoleResolution (s : Places) (k j m c : ℕ) : Prop where
  below : Below k j m c
  node : ∃ n, s k j = some n ∧ n.unmergedLeaves = []
  only : ∀ k' j', Below k' j' m c → s k' j' ≠ none → Below k' j' k j

theorem SoleResolution.congr {s s' : Places} {k j m c : ℕ} (h : SoleResolution s k j m c)
    (hs : ∀ k' j', Below k' j' m c → s' k' j' = s k' j') : SoleResolution s' k j m c where
  below := h.below
  node := by
    rw [hs k j h.below]
    exact h.node
  only k' j' hb hne := h.only k' j' hb (by rwa [← hs k' j' hb])

/-! ## What holds of a parent and the subtree it was set over -/

/-- The octets whose hash binds a node to the parent. -/
def bindingInput (p : ParentNode) (x : Bytes) : ParentHashInput where
  encryptionKey := p.hpkePublicKey
  parentHash := p.parentHash
  originalSiblingTreeHash := x

theorem bindParent_eq_ok {h : Hash} {p : ParentNode} {x v : Bytes} :
    bindParent h p x = .ok v ↔ ∃ y, encodeParentHashInput (bindingInput p x) = .ok y ∧ h.digest y = v := by
  rw [bindParent, bind_eq_ok]
  simp [bindingInput, pure, Except.pure]

/-- The subtrees below the parent can be hashed and bound, and below one child
the only node of the resolution carries the parent hash that binds it. -/
structure Chained (h : Hash) (S : Set Bytes) (s : Places) (m q : ℕ) (p : ParentNode) : Prop where
  sides : ∀ c, c / 2 = q → ∃ x y, subtreeHashAt s h m c = .ok x ∧ InputsIn S s h m c ∧
    encodeParentHashInput (bindingInput p x) = .ok y ∧ y ∈ S
  link : ∃ k j c n x v, c / 2 = q ∧ SoleResolution s k j m c ∧ s k j = some n ∧
    subtreeHashAt s h m (sib c) = .ok x ∧ bindParent h p x = .ok v ∧ getParentHash n = some v

theorem subtreeInputAt_congr {s s' : Places} {h : Hash} {k j : ℕ}
    (heq : ∀ k' j', Below k' j' k j → s' k' j' = s k' j') :
    subtreeInputAt s' h k j = subtreeInputAt s h k j := by
  cases k with
  | zero => rw [subtreeInputAt, subtreeInputAt, heq 0 j (InOrder.below_refl 0 j)]
  | succ k =>
    rw [subtreeInputAt, subtreeInputAt, heq (k + 1) j (InOrder.below_refl _ j),
      subtreeHashAt_congr fun k' j' hb => heq k' j' (hb.trans (InOrder.below_left k j)),
      subtreeHashAt_congr fun k' j' hb => heq k' j' (hb.trans (InOrder.below_right k j))]

theorem below_child {m q c : ℕ} (hc : c / 2 = q) : Below m c (m + 1) q :=
  ⟨by omega, by simpa using hc⟩

theorem Chained.congr {h : Hash} {S : Set Bytes} {s s' : Places} {m q : ℕ} {p p' : ParentNode}
    (hc : Chained h S s m q p) (hkey : p'.hpkePublicKey = p.hpkePublicKey)
    (hph : p'.parentHash = p.parentHash)
    (hs : ∀ k j, Below k j (m + 1) q → s' k j = s k j) : Chained h S s' m q p' := by
  have hb : ∀ x, bindingInput p' x = bindingInput p x := fun x => by
    rw [bindingInput, bindingInput, hkey, hph]
  have hside : ∀ c, c / 2 = q → ∀ k j, Below k j m c → s' k j = s k j := fun c hcq k j hkj =>
    hs k j (hkj.trans (below_child hcq))
  have hhash : ∀ c, c / 2 = q → subtreeHashAt s' h m c = subtreeHashAt s h m c := fun c hcq =>
    subtreeHashAt_congr (hside c hcq)
  refine ⟨fun c hcq => ?_, ?_⟩
  · obtain ⟨x, y, hx, hS, hy, hyS⟩ := hc.sides c hcq
    refine ⟨x, y, by rw [hhash c hcq, hx], fun k j z hkj hz => hS k j z hkj ?_, by rw [hb, hy], hyS⟩
    rw [← subtreeInputAt_congr fun k' j' hb => hside c hcq k' j' (hb.trans hkj), hz]
  · obtain ⟨k, j, c, n, x, v, hcq, hsole, hn, hx, hv, hnv⟩ := hc.link
    refine ⟨k, j, c, n, x, v, hcq, hsole.congr (hside c hcq), ?_, ?_, ?_, hnv⟩
    · rw [hside c hcq k j hsole.below, hn]
    · rw [hhash (sib c) (by rw [sib_div_two, hcq]), hx]
    · rw [bindParent_eq_ok] at hv ⊢
      rwa [hb]

/-- Every parent of the tree is chained in the subtree it was set over. -/
def ParentsChained (h : Hash) (S : Set Bytes) (t : RatchetTree) : Prop :=
  ∀ m q p, slot t (m + 1) q = some (.parent p) → Chained h S (originalPlaces t p) m q p

section
variable {h : Hash} {S : Set Bytes} {t t' : RatchetTree} {i : ℕ}

theorem ParentsChained.added {l : LeafNode} (hc : ParentsChained h S t) (ht : TreeInvariant t)
    (ha : Added t t' i l) : ParentsChained h S t' := by
  intro m q p' hp'
  obtain ⟨p, hp, hkey, hph, hs⟩ := originalPlaces_added ht ha hp'
  exact (hc m q p hp).congr hkey hph hs

/-- A parent off a path that is written keeps its subtree. -/
theorem ParentsChained.off (hc : ParentsChained h S t) {m q : ℕ} {p : ParentNode}
    (hoff : ∀ k j, i / 2 ^ k ≠ j → slot t' k j = slot t k j) (hi : i / 2 ^ (m + 1) ≠ q)
    (hp : slot t' (m + 1) q = some (.parent p)) : Chained h S (originalPlaces t' p) m q p := by
  rw [hoff _ _ hi] at hp
  exact (hc m q p hp).congr rfl rfl fun k j hb =>
    without_off (hoff k j fun hk => hi (hb.leaf hk))

theorem ParentsChained.blanked {v : Option LeafNode} (hc : ParentsChained h S t)
    (hb : Blanked t t' i v) : ParentsChained h S t' := by
  intro m q p hp
  obtain ⟨-, hne⟩ := hb.parent hp
  exact hc.off hb.off hne hp

end

end WebcryptoMls
