import WebcryptoMls.ParentHashChains
import WebcryptoMls.UnmergedLeaves

/-!
# Who a resolution reaches

A resolution is the list of nodes a path secret is sealed to. The recursion stops
at the first non-blank node and adds the leaves that node lists as unmerged, so a
member holds the key of exactly one entry: that node, or its own leaf where the
node lists it. Only the node the member is below matters; the parents between it
and the leaf are not looked at.
-/
namespace WebcryptoMls
open InOrder (index size Below)

/-- The node at `e` is the leaf `u`, or a parent above it that does not list it. -/
def Reaches (t : RatchetTree) (u : ℕ) (e : ℤ) : Prop :=
  e = coord 0 u ∨ ∃ k p, e = coord k (u / 2 ^ k) ∧ slot t k (u / 2 ^ k) = some (.parent p) ∧
    u ∉ p.unmergedLeaves

/-! ## Every node index -/

theorem left_eq_ok {k j : ℕ} {l : ℤ} (h : left (coord k j) = .ok l) : index k j < 2 ^ 31 := by
  obtain ⟨m, hm, -⟩ := bind_eq_ok.mp h
  obtain ⟨u, hu, -⟩ := bind_eq_ok.mp hm
  rw [assertValidNodeIndex, coord] at hu
  split_ifs at hu with hlt
  push Not at hlt
  omega

/-- `right` of the widest root is negative, and `resolution` of it throws. -/
theorem resolutionLoop_right_widest (t : RatchetTree) (fuel : ℕ) {r : ℤ} {l : List ℤ}
    (hr : right (coord 31 0) = .ok r) : resolutionLoop t fuel r ≠ .ok l := by
  have hroot : right (coord 31 0) = .ok (-1073741825) := by decide +kernel
  obtain rfl := Except.ok.inj (hroot.symm.trans hr)
  intro h
  cases fuel with
  | zero => cases h
  | succ fuel =>
    have hleaf : isLeaf (-1073741825) = false := by decide
    have hleft : left (-1073741825) = .error (validationError "node index out of range: -1073741825") := by
      decide +kernel
    rw [resolutionLoop, nodeAt, if_pos (by omega), hleaf, hleft] at h
    cases h

/-- Wherever `resolution` returns, it returns the resolution by levels. -/
theorem resolutionLoop_eq_ok {t : RatchetTree} {fuel k j : ℕ} {r : List ℤ}
    (h : index k j < size 31) (hr : resolutionLoop t fuel (coord k j) = .ok r) :
    r = resolutionAt t k j := by
  have hmap : ∀ l : List ℕ, l.map leafToNodeIndex = l.map (coord 0) := fun l =>
    List.map_congr_left fun i _ => leafToNodeIndex_eq i
  induction fuel generalizing k j r with
  | zero => cases hr
  | succ fuel ih =>
    rw [resolutionLoop, nodeAt_coord, isLeaf_coord] at hr
    cases k with
    | zero =>
      rw [resolutionAt]
      cases hn : slot t 0 j <;> rw [hn] at hr <;> exact (Except.ok.inj hr).symm
    | succ k =>
      rw [resolutionAt]
      cases hn : slot t (k + 1) j with
      | some n =>
        rw [hn] at hr
        obtain rfl := Except.ok.inj hr
        cases n <;> simp [Node.unmergedLeaves, hmap]
      | none =>
        rw [hn] at hr
        obtain ⟨l, hl, hr⟩ := bind_eq_ok.mp hr
        obtain ⟨r', hright, hr⟩ := bind_eq_ok.mp hr
        obtain ⟨leftRes, hleftRes, hr⟩ := bind_eq_ok.mp hr
        obtain ⟨rightRes, hrightRes, hr⟩ := bind_eq_ok.mp hr
        obtain rfl := Except.ok.inj hr
        have hlt := left_eq_ok hl
        rcases Nat.lt_or_ge (k + 1) 31 with hk | hk
        · rw [left_coord hlt, Except.ok.injEq] at hl
          rw [right_coord hlt (by omega), Except.ok.injEq] at hright
          rw [← hl] at hleftRes
          rw [← hright] at hrightRes
          rw [ih (child_lt_size h (by omega)) hleftRes, ih (child_lt_size h (by omega)) hrightRes]
        · obtain ⟨hk31, hj⟩ := InOrder.index_lt_size.mp h
          obtain rfl : k = 30 := by omega
          obtain rfl : j = 0 := by omega
          exact absurd hrightRes (resolutionLoop_right_widest t fuel hright)

/-! ## Exactly one entry -/

section
variable {t : RatchetTree} {k j : ℕ}

/-- The entries of a resolution are non-blank: topmost nodes and listed leaves. -/
theorem Represented.resolution_ne_none (ht : Represented t) {e : ℤ}
    (he : e ∈ resolutionAt t k j) : nodeAt t e ≠ none := by
  obtain ⟨k', j', n, htop, rfl | ⟨u, hu, rfl⟩⟩ := (mem_resolutionAt ht.typed).mp he
  · rw [nodeAt_coord, htop.node]
    simp
  · exact (ht.unmerged_below htop.node hu).2

/-- Two topmost nodes above one leaf are the same. -/
theorem Topmost.unique {k₁ k₂ u m c : ℕ} {n₁ n₂ : Node}
    (h₁ : Topmost t k₁ (u / 2 ^ k₁) m c n₁) (h₂ : Topmost t k₂ (u / 2 ^ k₂) m c n₂) : k₁ = k₂ := by
  have habove : ∀ {a b : ℕ} {x y : Node}, Topmost t a (u / 2 ^ a) m c x →
      Topmost t b (u / 2 ^ b) m c y → ¬ a < b := fun ha hb hlt => by
    have hblank := ha.blank _ hlt hb.below.1
    rw [InOrder.div_two_pow_sub hlt.le, hb.node] at hblank
    cases hblank
  have h12 := habove h₁ h₂
  have h21 := habove h₂ h₁
  omega

/-- A non-blank leaf below the node is reached by one entry of its resolution. -/
theorem Represented.existsUnique_reaches (ht : Represented t) {u : ℕ} (hj : u / 2 ^ k = j)
    (hu : slot t 0 u ≠ none) : ∃! e, e ∈ resolutionAt t k j ∧ Reaches t u e := by
  subst hj
  obtain ⟨l, hl⟩ := Option.ne_none_iff_exists'.mp hu
  obtain ⟨k₀, n, htop⟩ := exists_topmost (m := k) hl
  -- every entry that reaches the leaf comes from the topmost node above it
  have hsource : ∀ e, e ∈ resolutionAt t k (u / 2 ^ k) → Reaches t u e →
      e = coord k₀ (u / 2 ^ k₀) ∨ e = coord 0 u ∧ u ∈ n.unmergedLeaves := by
    intro e he hreach
    obtain ⟨k₁, j₁, n₁, htop₁, rfl | ⟨v, hv, rfl⟩⟩ := (mem_resolutionAt ht.typed).mp he
    · left
      rcases hreach with heq | ⟨k₂, p, heq, -, -⟩
      · obtain ⟨rfl, rfl⟩ := coord_inj.mp heq
        have htop₂ : Topmost t 0 (j₁ / 2 ^ 0) k (j₁ / 2 ^ k) n₁ := by simpa using htop₁
        obtain rfl := htop₂.unique htop
        simp
      · obtain ⟨rfl, rfl⟩ := coord_inj.mp heq
        obtain rfl := htop₁.unique htop
        rfl
    · obtain ⟨hvj, -⟩ := ht.unmerged_below htop₁.node hv
      rcases hreach with heq | ⟨k₂, p, heq, hp, -⟩
      · obtain rfl := (coord_inj.mp heq).2
        subst hvj
        obtain rfl := htop₁.unique htop
        obtain rfl := Option.some.inj (htop₁.node.symm.trans htop.node)
        exact .inr ⟨rfl, hv⟩
      · obtain ⟨rfl, rfl⟩ := coord_inj.mp heq
        obtain ⟨leaf, hleaf⟩ := ht.typed.leaf _ _ hp
        cases hleaf
  by_cases hmem : u ∈ n.unmergedLeaves
  · refine ⟨coord 0 u, ⟨(mem_resolutionAt ht.typed).mpr ⟨k₀, _, n, htop, .inr ⟨u, hmem, rfl⟩⟩,
      .inl rfl⟩, fun e he => ?_⟩
    rcases hsource e he.1 he.2 with rfl | ⟨rfl, -⟩
    · rcases he.2 with heq | ⟨k₂, p, heq, hp, hnot⟩
      · exact heq
      · obtain ⟨rfl, -⟩ := coord_inj.mp heq
        obtain rfl := Option.some.inj (htop.node.symm.trans hp)
        exact absurd hmem hnot
    · rfl
  · refine ⟨coord k₀ (u / 2 ^ k₀), ⟨(mem_resolutionAt ht.typed).mpr ⟨k₀, _, n, htop, .inl rfl⟩, ?_⟩,
      fun e he => (hsource e he.1 he.2).resolve_right fun h => hmem h.2⟩
    cases k₀ with
    | zero => exact .inl (by simp)
    | succ k₀ =>
      obtain ⟨p, rfl⟩ := ht.typed.parent k₀ _ n htop.node
      exact .inr ⟨k₀ + 1, p, rfl, htop.node, hmem⟩

end

/-- For every tree with the representation invariant and every node: a resolution
reaches every member below the node once. It is returned for every tree of fewer
than `2 ^ 31` nodes; in the one wider tree an array holds, treemath refuses some
of the blank nodes. -/
theorem resolution_reaches_once {t : RatchetTree} {d k j : ℕ} (ht : Represented t)
    (hg : Grown d t) (hlt : index k j < t.length) :
    (t.length < 2 ^ 31 → ∃ r, resolution t (coord k j) = .ok r) ∧
    ∀ r, resolution t (coord k j) = .ok r →
      r.Nodup ∧ (∀ e ∈ r, nodeAt t e ≠ none) ∧
      (∀ u, u / 2 ^ k = j → slot t 0 u ≠ none → ∃! e, e ∈ r ∧ Reaches t u e) ∧
      (Covered t → (r = [] ↔ ∀ u, u / 2 ^ k = j → slot t 0 u = none)) := by
  rw [hg.length] at hlt ⊢
  refine ⟨fun hsize => ⟨resolutionAt t k j, resolution_coord ?_⟩, fun r hr => ?_⟩
  · refine hlt.trans_le (size_mono ?_)
    by_contra hd
    have := size_mono (show 31 ≤ d by omega)
    have : size 31 = 2 ^ 32 - 1 := rfl
    omega
  · obtain rfl := resolutionLoop_eq_ok (hlt.trans_le (size_mono hg.depth)) hr
    refine ⟨ht.resolution_nodup k j, fun e he => ht.resolution_ne_none he,
      fun u hj hu => ht.existsUnique_reaches hj hu, fun hc => ?_⟩
    rw [← not_iff_not, ← Ne, hc.resolution_ne_nil]
    push Not
    rfl

/-- The two sides of a pair: the root is blank and each leaf is its own entry. -/
theorem resolution_reaches_once_pair :
    ∃ r, resolution [some (.leaf default), none, some (.leaf default)] 1 = .ok r ∧
      ∃! e, e ∈ r ∧ Reaches [some (.leaf default), none, some (.leaf default)] 1 e := by
  have hadd : addLeafNode [some (.leaf default)] default =
      .ok ([some (.leaf default), none, some (.leaf default)], 2) := rfl
  obtain ⟨hinv, d, hg⟩ := ((Reachable.init default).addLeafNode hadd).invariant
  obtain ⟨hreturns, hreaches⟩ := resolution_reaches_once (k := 1) (j := 0) hinv.represented hg
    (by decide)
  obtain ⟨r, hr⟩ := hreturns (by decide)
  exact ⟨r, hr, (hreaches r hr).2.2.1 1 rfl (by decide)⟩

/-- In the widest tree the resolution of a blank root is never returned. -/
theorem exists_resolution_refused : ∃ t d, Represented t ∧ Grown d t ∧ index 31 0 < t.length ∧
    ∀ r, resolution t (coord 31 0) ≠ .ok r := by
  obtain ⟨t, d, ⟨ht, hblank⟩, hf⟩ := exists_filledUpTo (l := default) (m := 1) (n := 2 ^ 30 + 1)
    (P := fun t => Reachable t ∧ ∀ k j, slot t (k + 1) j = none)
    (fun t t' x h hadd => ⟨h.1.addLeafNode hadd, fun k j => by
      obtain ⟨-, d, hg⟩ := h.1.invariant
      obtain ⟨i, d', -, -, -, -, -, -, -, hslot⟩ := addLeafNode_spec hg.length hg.depth hadd
      simp [hslot, h.2]⟩)
    ⟨[some (.leaf default)], 0, ⟨.init default, fun k j => by simp [slot_singleton]⟩,
      filledUpTo_singleton default⟩ (by omega) le_rfl
  obtain ⟨hinv, d', hg⟩ := ht.invariant
  obtain rfl := InOrder.size_inj (hf.length.symm.trans hg.length)
  have hd : d = 31 := by
    obtain ⟨node, hn⟩ := Option.ne_none_iff_exists'.mp ((hf.leaf (2 ^ 30)).mpr (by omega))
    have hlt := InOrder.leaf_lt_size.mp (hf.length ▸ index_lt_of_slot hn)
    have := (Nat.pow_lt_pow_iff_right (a := 2) (by omega)).mp hlt
    have := hg.depth
    omega
  have hroot : index 31 0 < t.length := by
    rw [hf.length, hd]
    exact InOrder.index_lt_size.mpr (by omega)
  refine ⟨t, d, hinv.represented, hg, hroot, fun r hr => ?_⟩
  rw [resolution, resolutionLoop, nodeAt_coord, hblank 30 0, isLeaf_coord] at hr
  obtain ⟨l, -, hr⟩ := bind_eq_ok.mp hr
  obtain ⟨r', hright, hr⟩ := bind_eq_ok.mp hr
  obtain ⟨leftRes, -, hr⟩ := bind_eq_ok.mp hr
  obtain ⟨rightRes, hrightRes, -⟩ := bind_eq_ok.mp hr
  exact resolutionLoop_right_widest t 32 hright hrightRes

end WebcryptoMls
