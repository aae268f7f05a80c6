import WebcryptoMls.SecretTree

/-!
# The secrets along a path

The secret of a node is expanded for each of its children and a leaf's secret for
each of its two ratchets. Where no two of these expansions have one output, two
paths that part stay apart: below the fork the secrets differ, so the inputs of
the expansions differ all the way down.
-/
namespace WebcryptoMls

inductive Direction where
  | left
  | right
  deriving Repr, DecidableEq

def Direction.label : Direction → String
  | .left => "left"
  | .right => "right"

def Direction.child : Direction → ℤ → Except MlsError ℤ
  | .left => WebcryptoMls.left
  | .right => WebcryptoMls.right

def RatchetName.label : RatchetName → String
  | .handshake => "handshake"
  | .application => "application"

/-- The side of a node of level `k + 1` that leaf `i` is on. -/
def direction (k i : ℕ) : Direction := if i / 2 ^ k % 2 = 0 then .left else .right

/-- The path from the node of level `k` above leaf `i` to the leaf. -/
def directions : ℕ → ℕ → List Direction
  | 0, _ => []
  | k + 1, i => direction k i :: directions k i

/-- The node a path leads to. -/
def descend (nodeIndex : ℤ) (path : List Direction) : Except MlsError ℤ :=
  path.foldlM (fun n dir => dir.child n) nodeIndex

/-- The secret at the end of a path. -/
def expandPath (kdf : Kdf) (secret : Bytes) (path : List Direction) : Except MlsError Bytes :=
  path.foldlM (fun secret dir =>
    expandWithLabel secret "tree" (encodeText dir.label) kdf.size kdf) secret

/-- The secret one of leaf `i`'s ratchets starts from, in the tree with `2 ^ d` leaves. -/
def ratchetRoot (kdf : Kdf) (d : ℕ) (encryptionSecret : Bytes) (i : ℕ) (name : RatchetName) :
    Except MlsError Bytes := do
  let secret ← expandPath kdf encryptionSecret (directions d i)
  expandWithLabel secret name.label [] kdf.size kdf

/-! ## Paths -/

theorem direction_left (k j : ℕ) {i : ℕ} (h : i / 2 ^ k = 2 * j) : direction k i = .left := by
  rw [direction, if_pos (by omega)]

theorem direction_right (k j : ℕ) {i : ℕ} (h : i / 2 ^ k = 2 * j + 1) : direction k i = .right := by
  rw [direction, if_neg (by omega)]

/-- A path tells the leaf apart from the others below the node it starts from. -/
theorem mod_eq_of_directions_eq {k i i' : ℕ} (h : directions k i = directions k i') :
    i % 2 ^ k = i' % 2 ^ k := by
  induction k with
  | zero => simp [Nat.mod_one]
  | succ k ih =>
    obtain ⟨hside, hrest⟩ := List.cons.inj h
    have hbit : i / 2 ^ k % 2 = i' / 2 ^ k % 2 := by
      unfold direction at hside
      split_ifs at hside <;> omega
    rw [Nat.mod_pow_succ, Nat.mod_pow_succ, ih hrest, hbit]

theorem directions_inj {d i i' : ℕ} (hi : i < 2 ^ d) (hi' : i' < 2 ^ d)
    (h : directions d i = directions d i') : i = i' := by
  have hmod := mod_eq_of_directions_eq h
  rwa [Nat.mod_eq_of_lt hi, Nat.mod_eq_of_lt hi'] at hmod

/-- Every leaf stands at the end of its path. -/
theorem descend_directions {d k i : ℕ} (hd : d ≤ 30) (hk : k ≤ d) (hi : i < 2 ^ d) :
    descend (coord k (i / 2 ^ k)) (directions k i) = .ok (leafToNodeIndex i) := by
  induction k with
  | zero =>
    rw [pow_zero, Nat.div_one, leafToNodeIndex_eq]
    rfl
  | succ k ih =>
    have hlt : InOrder.index (k + 1) (i / 2 ^ (k + 1)) < 2 ^ 31 :=
      (InOrder.ancestor_lt_size hk hi).trans (size_lt_of_le hd)
    have hchild : (direction k i).child (coord (k + 1) (i / 2 ^ (k + 1))) =
        .ok (coord k (i / 2 ^ k)) := by
      rw [InOrder.div_two_pow_succ] at *
      rcases Nat.mod_two_eq_zero_or_one (i / 2 ^ k) with h | h
      · rw [direction_left k (i / 2 ^ k / 2) (by omega), Direction.child, left_coord hlt,
          show 2 * (i / 2 ^ k / 2) = i / 2 ^ k by omega]
      · rw [direction_right k (i / 2 ^ k / 2) (by omega), Direction.child,
          right_coord hlt (by omega), show 2 * (i / 2 ^ k / 2) + 1 = i / 2 ^ k by omega]
    rw [descend, directions, List.foldlM_cons, hchild, ok_bind]
    exact ih (by omega)

/-! ## Expansions -/

/-- Label and content are written with their lengths. -/
theorem encodeLabelled_inj {label label' : String} {content content' info : Bytes}
    (h : encodeLabelled label content = .ok info) (h' : encodeLabelled label' content' = .ok info) :
    label = label' ∧ content = content' := by
  obtain ⟨labelBytes, hlabel, h⟩ := bind_eq_ok.mp h
  obtain ⟨labelBytes', hlabel', h'⟩ := bind_eq_ok.mp h'
  obtain ⟨contentBytes, hcontent, h⟩ := bind_eq_ok.mp h
  obtain ⟨contentBytes', hcontent', h'⟩ := bind_eq_ok.mp h'
  have hsame := Except.ok.inj (h.trans h'.symm)
  obtain ⟨htext, rfl⟩ := encodeVarLenData_rest hlabel hlabel' hsame
  exact ⟨(String.append_right_inj _).mp (encodeText_inj htext), encodeVarLenData_inj hcontent hcontent'⟩

/-- What is expanded, and under which label and context. -/
@[ext]
structure Expansion where
  secret : Bytes
  label : String
  context : Bytes
  deriving DecidableEq

namespace Expansion

/-- The expansion of a node's secret for a child. -/
def child (secret : Bytes) (dir : Direction) : Expansion where
  secret := secret
  label := "tree"
  context := encodeText dir.label

/-- The expansion of a leaf's secret for a ratchet. -/
def ratchet (secret : Bytes) (name : RatchetName) : Expansion where
  secret := secret
  label := name.label
  context := []

def run (kdf : Kdf) (e : Expansion) : Except MlsError Bytes :=
  expandWithLabel e.secret e.label e.context kdf.size kdf

/-- The key and the info the expansion gives the KDF. -/
def input (kdf : Kdf) (e : Expansion) : Except MlsError (Bytes × Bytes) := do
  let lengthBytes ← encodeUint16 kdf.size
  let info ← encodeLabelled e.label e.context
  pure (e.secret, lengthBytes ++ info)

theorem run_eq_ok {kdf : Kdf} {e : Expansion} {out : Bytes} :
    e.run kdf = .ok out ↔ ∃ x, e.input kdf = .ok x ∧ kdf.expand x.1 x.2 kdf.size = .ok out := by
  have h : e.run kdf = e.input kdf >>= fun x => kdf.expand x.1 x.2 kdf.size := by
    rw [run, expandWithLabel, input, bind_assoc]
    congr 1
    funext lengthBytes
    rw [bind_assoc]
    rfl
  rw [h, bind_eq_ok]

theorem input_inj {kdf : Kdf} {e e' : Expansion} {x : Bytes × Bytes} (h : e.input kdf = .ok x)
    (h' : e'.input kdf = .ok x) : e = e' := by
  obtain ⟨lengthBytes, hlength, h⟩ := bind_eq_ok.mp h
  obtain ⟨lengthBytes', hlength', h'⟩ := bind_eq_ok.mp h'
  obtain ⟨info, hinfo, h⟩ := bind_eq_ok.mp h
  obtain ⟨info', hinfo', h'⟩ := bind_eq_ok.mp h'
  obtain rfl := Except.ok.inj (hlength.symm.trans hlength')
  obtain rfl := Except.ok.inj h
  obtain ⟨hsecret, hbytes⟩ := Prod.mk.inj (Except.ok.inj h')
  obtain rfl := List.append_cancel_left hbytes
  obtain ⟨hlabel, hcontext⟩ := encodeLabelled_inj hinfo hinfo'
  exact Expansion.ext hsecret.symm hlabel hcontext

end Expansion

/-- What is expanded below a node of level `k` with this secret. -/
def expansions (kdf : Kdf) : ℕ → Bytes → List Expansion
  | 0, secret => [.ratchet secret .application, .ratchet secret .handshake]
  | k + 1, secret => [.left, .right].flatMap fun dir =>
    .child secret dir :: ((Expansion.child secret dir).run kdf).toOption.toList.flatMap (expansions kdf k)

/-- What the KDF is given when a secret tree is made. -/
def expandInputs (kdf : Kdf) (d : ℕ) (encryptionSecret : Bytes) : Set (Bytes × Bytes) :=
  {x | ∃ e ∈ expansions kdf d encryptionSecret, e.input kdf = .ok x}

section
variable {kdf : Kdf} {k : ℕ} {secret secret' : Bytes}

theorem mem_expansions_ratchet (secret : Bytes) (name : RatchetName) :
    .ratchet secret name ∈ expansions kdf 0 secret := by
  cases name <;> simp [expansions]

theorem mem_expansions_child (k : ℕ) (secret : Bytes) (dir : Direction) :
    .child secret dir ∈ expansions kdf (k + 1) secret := by
  cases dir <;> simp [expansions]

theorem mem_expansions_below {e : Expansion} {dir : Direction}
    (hrun : (Expansion.child secret dir).run kdf = .ok secret') (he : e ∈ expansions kdf k secret') :
    e ∈ expansions kdf (k + 1) secret := by
  rw [expansions, List.mem_flatMap]
  refine ⟨dir, by cases dir <;> simp, List.mem_cons_of_mem _ ?_⟩
  simpa [hrun, Except.toOption] using he

theorem expandPath_cons {dir : Direction} {path : List Direction} {out : Bytes} :
    expandPath kdf secret (dir :: path) = .ok out ↔
      ∃ child, (Expansion.child secret dir).run kdf = .ok child ∧ expandPath kdf child path = .ok out := by
  rw [expandPath, List.foldlM_cons]
  exact bind_eq_ok

/-- The secret of a leaf is expanded for both ratchets. -/
theorem mem_expansions_leaf {i : ℕ} {leaf : Bytes}
    (h : expandPath kdf secret (directions k i) = .ok leaf) (name : RatchetName) :
    .ratchet leaf name ∈ expansions kdf k secret := by
  induction k generalizing secret with
  | zero =>
    obtain rfl : secret = leaf := Except.ok.inj h
    exact mem_expansions_ratchet secret name
  | succ k ih =>
    obtain ⟨child, hchild, h⟩ := expandPath_cons.mp h
    exact mem_expansions_below hchild (ih h)

/-- No two of these expansions have one output. -/
def Separate (kdf : Kdf) (es : List Expansion) : Prop :=
  ∀ e ∈ es, ∀ e' ∈ es, ∀ out, e.run kdf = .ok out → e'.run kdf = .ok out → e = e'

/-- The inputs of the KDF tell the expansions apart. -/
theorem collisionFree_iff_separate {d : ℕ} :
    CollisionFree (fun x : Bytes × Bytes => kdf.expand x.1 x.2 kdf.size) (expandInputs kdf d secret) ↔
      Separate kdf (expansions kdf d secret) := by
  constructor
  · intro h e he e' he' out hout hout'
    obtain ⟨x, hx, hout⟩ := Expansion.run_eq_ok.mp hout
    obtain ⟨x', hx', hout'⟩ := Expansion.run_eq_ok.mp hout'
    obtain rfl := h x ⟨e, he, hx⟩ x' ⟨e', he', hx'⟩ out hout hout'
    exact Expansion.input_inj hx hx'
  · rintro h x ⟨e, he, hx⟩ x' ⟨e', he', hx'⟩ out hout hout'
    obtain rfl := h e he e' he' out (Expansion.run_eq_ok.mpr ⟨x, hx, hout⟩)
      (Expansion.run_eq_ok.mpr ⟨x', hx', hout'⟩)
    exact Except.ok.inj (hx.symm.trans hx')

theorem Expansion.child_inj {dir dir' : Direction}
    (h : Expansion.child secret dir = Expansion.child secret' dir') : secret = secret' ∧ dir = dir' := by
  have hlabel : dir.label = dir'.label := encodeText_inj (congrArg Expansion.context h)
  refine ⟨congrArg Expansion.secret h, ?_⟩
  cases dir <;> cases dir' <;> first | rfl | simp [Direction.label] at hlabel

theorem Expansion.ratchet_inj {name name' : RatchetName}
    (h : Expansion.ratchet secret name = Expansion.ratchet secret' name') :
    secret = secret' ∧ name = name' := by
  have hlabel : name.label = name'.label := congrArg Expansion.label h
  refine ⟨congrArg Expansion.secret h, ?_⟩
  cases name <;> cases name' <;> first | rfl | simp [RatchetName.label] at hlabel

section
variable {es : List Expansion} {i i' : ℕ} {leaf leaf' : Bytes}

/-- Two nodes of one level with different secrets have no leaf secret in common. -/
theorem leaf_ne_of_secret_ne (hsep : Separate kdf es) (hne : secret ≠ secret')
    (hsub : expansions kdf k secret ⊆ es) (hsub' : expansions kdf k secret' ⊆ es)
    (h : expandPath kdf secret (directions k i) = .ok leaf)
    (h' : expandPath kdf secret' (directions k i') = .ok leaf') : leaf ≠ leaf' := by
  induction k generalizing secret secret' with
  | zero =>
    obtain rfl : secret = leaf := Except.ok.inj h
    obtain rfl : secret' = leaf' := Except.ok.inj h'
    exact hne
  | succ k ih =>
    obtain ⟨child, hchild, h⟩ := expandPath_cons.mp h
    obtain ⟨child', hchild', h'⟩ := expandPath_cons.mp h'
    have hchildren : child ≠ child' := by
      rintro rfl
      have hsame := hsep _ (hsub (mem_expansions_child k secret _)) _
        (hsub' (mem_expansions_child k secret' _)) child hchild hchild'
      exact hne (Expansion.child_inj hsame).1
    exact ih hchildren (fun _ he => hsub (mem_expansions_below hchild he))
      (fun _ he => hsub' (mem_expansions_below hchild' he)) h h'

/-- Below one node two leaves part where their paths do. -/
theorem leaf_ne_of_directions_ne (hsep : Separate kdf es) (hne : directions k i ≠ directions k i')
    (hsub : expansions kdf k secret ⊆ es)
    (h : expandPath kdf secret (directions k i) = .ok leaf)
    (h' : expandPath kdf secret (directions k i') = .ok leaf') : leaf ≠ leaf' := by
  induction k generalizing secret with
  | zero => exact absurd rfl hne
  | succ k ih =>
    obtain ⟨child, hchild, h⟩ := expandPath_cons.mp h
    obtain ⟨child', hchild', h'⟩ := expandPath_cons.mp h'
    have hbelow : expansions kdf k child ⊆ es := fun _ he => hsub (mem_expansions_below hchild he)
    have hbelow' : expansions kdf k child' ⊆ es := fun _ he => hsub (mem_expansions_below hchild' he)
    by_cases hside : direction k i = direction k i'
    · rw [hside] at hchild
      obtain rfl := Except.ok.inj (hchild.symm.trans hchild')
      refine ih (fun hrest => hne ?_) hbelow h h'
      rw [directions, directions, hside, hrest]
    · refine leaf_ne_of_secret_ne hsep ?_ hbelow hbelow' h h'
      rintro rfl
      have hsame := hsep _ (hsub (mem_expansions_child k secret _)) _
        (hsub (mem_expansions_child k secret _)) child hchild hchild'
      exact hside (Expansion.child_inj hsame).2

end

/-- No two ratchets start from one secret. -/
theorem ratchetRoot_inj {d i i' : ℕ} {name name' : RatchetName} {root : Bytes}
    (hsep : Separate kdf (expansions kdf d secret)) (hi : i < 2 ^ d) (hi' : i' < 2 ^ d)
    (h : ratchetRoot kdf d secret i name = .ok root)
    (h' : ratchetRoot kdf d secret i' name' = .ok root) : i = i' ∧ name = name' := by
  obtain ⟨leaf, hleaf, h⟩ := bind_eq_ok.mp h
  obtain ⟨leaf', hleaf', h'⟩ := bind_eq_ok.mp h'
  obtain ⟨rfl, rfl⟩ := Expansion.ratchet_inj (hsep _ (mem_expansions_leaf hleaf name) _
    (mem_expansions_leaf hleaf' name') root h h')
  refine ⟨?_, rfl⟩
  by_contra hne
  exact leaf_ne_of_directions_ne hsep (fun heq => hne (directions_inj hi hi' heq)) (List.Subset.refl _)
    hleaf hleaf' rfl

end

end WebcryptoMls
