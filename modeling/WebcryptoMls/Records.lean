import Mathlib.Data.Finset.Card
import Mathlib.Data.Finset.Max
import Mathlib.Data.List.Sort
import Mathlib.Data.Set.Basic

/-!
# Records

Finite maps that keep their keys in the order they were first set, no key twice.
Setting a key that is there keeps its place. A record is read through `get`; each
operation is described by what it does to every `get`.
-/
namespace Records

variable {κ α : Type}

structure Record (κ α : Type) where
  entries : List (κ × α)
  nodup : (entries.map Prod.fst).Nodup
  deriving DecidableEq

namespace Record

def empty : Record κ α := ⟨[], List.nodup_nil⟩

def keys (r : Record κ α) : List κ := r.entries.map Prod.fst

def values (r : Record κ α) : List α := r.entries.map Prod.snd

def size (r : Record κ α) : ℕ := r.entries.length

variable [DecidableEq κ]

def get (r : Record κ α) (k : κ) : Option α := (r.entries.find? fun e => e.1 = k).map Prod.snd

def setEntries (k : κ) (a : α) : List (κ × α) → List (κ × α)
  | [] => [(k, a)]
  | e :: es => if e.1 = k then (k, a) :: es else e :: setEntries k a es

theorem keys_setEntries (k : κ) (a : α) (es : List (κ × α)) :
    (setEntries k a es).map Prod.fst =
      if k ∈ es.map Prod.fst then es.map Prod.fst else es.map Prod.fst ++ [k] := by
  induction es with
  | nil => rfl
  | cons e es ih =>
    unfold setEntries
    by_cases h : e.1 = k
    · simp [h]
    · rw [if_neg h, List.map_cons, List.map_cons, ih]
      by_cases hmem : k ∈ es.map Prod.fst
      · rw [if_pos hmem, if_pos (List.mem_cons_of_mem _ hmem)]
      · rw [if_neg hmem, if_neg]
        · rfl
        · exact fun hk => hmem ((List.mem_cons.mp hk).resolve_left fun he => h he.symm)

def set (r : Record κ α) (k : κ) (a : α) : Record κ α where
  entries := setEntries k a r.entries
  nodup := by
    rw [keys_setEntries]
    split_ifs with h
    · exact r.nodup
    · rw [List.nodup_append]
      refine ⟨r.nodup, List.nodup_singleton k, fun x hx y hy => ?_⟩
      rw [List.mem_singleton.mp hy]
      exact fun hxk => h (hxk ▸ hx)

def delete (r : Record κ α) (k : κ) : Record κ α where
  entries := r.entries.filter fun e => e.1 ≠ k
  nodup := r.nodup.sublist (List.filter_sublist.map Prod.fst)

def filterKeys (r : Record κ α) (p : κ → Bool) : Record κ α where
  entries := r.entries.filter fun e => p e.1
  nodup := r.nodup.sublist (List.filter_sublist.map Prod.fst)

/-- Sets entries one after the other. -/
def setAll (r : Record κ α) (es : List (κ × α)) : Record κ α :=
  es.foldl (fun r e => r.set e.1 e.2) r

def ofEntries (es : List (κ × α)) : Record κ α := empty.setAll es

/-- The entries of some keys, in the order of the keys. -/
def pick (r : Record κ α) (ks : List κ) : List (κ × α) :=
  ks.filterMap fun k => (r.get k).map fun a => (k, a)

theorem keys_pick_sublist (r : Record κ α) (ks : List κ) :
    ((r.pick ks).map Prod.fst).Sublist ks := by
  induction ks with
  | nil => exact List.Sublist.refl []
  | cons k ks ih =>
    unfold pick at ih ⊢
    rw [List.filterMap_cons]
    cases r.get k with
    | none => exact ih.cons k
    | some a => exact ih.cons_cons k

/-- The entries of the `max` greatest keys. -/
def latest [LinearOrder κ] (r : Record κ α) (max : ℕ) : Record κ α :=
  let sorted := r.keys.insertionSort (· ≤ ·)
  { entries := r.pick (sorted.drop (sorted.length - max))
    nodup := by
      have hperm := List.perm_insertionSort (· ≤ ·) r.keys
      have hnodup := hperm.nodup_iff.mpr r.nodup
      exact (hnodup.sublist (List.drop_sublist ..)).sublist (r.keys_pick_sublist _) }

theorem get_eq_some {r : Record κ α} {k : κ} {a : α} : r.get k = some a ↔ (k, a) ∈ r.entries := by
  obtain ⟨es, hnodup⟩ := r
  simp only [get]
  induction es with
  | nil => simp
  | cons e es ih =>
    obtain ⟨k', a'⟩ := e
    rw [List.map_cons, List.nodup_cons] at hnodup
    rw [List.find?_cons]
    by_cases h : k' = k
    · have hes : (k, a) ∉ es := fun hmem =>
        hnodup.1 (h ▸ List.mem_map.mpr ⟨(k, a), hmem, rfl⟩)
      simp [h, hes, eq_comm]
    · simp only [h, decide_false, List.mem_cons, Prod.mk.injEq]
      rw [ih hnodup.2]
      exact ⟨Or.inr, fun hor => hor.resolve_left fun he => h he.1.symm⟩

theorem get_eq_none {r : Record κ α} {k : κ} : r.get k = none ↔ k ∉ r.keys := by
  unfold get keys
  simp only [Option.map_eq_none_iff, List.find?_eq_none, decide_eq_true_eq, List.mem_map,
    not_exists, not_and]

@[simp] theorem get_empty (k : κ) : (empty : Record κ α).get k = none := rfl

theorem find?_setEntries (k k' : κ) (a : α) (es : List (κ × α)) :
    ((setEntries k a es).find? fun e => e.1 = k').map Prod.snd =
      if k' = k then some a else (es.find? fun e => e.1 = k').map Prod.snd := by
  induction es with
  | nil =>
    by_cases h : k' = k
    · simp [setEntries, h]
    · simp [setEntries, h, Ne.symm h]
  | cons e es ih =>
    unfold setEntries
    by_cases he : e.1 = k
    · by_cases h : k' = k
      · simp [he, h]
      · simp [he, h, Ne.symm h]
    · rw [if_neg he, List.find?_cons, List.find?_cons]
      by_cases h : e.1 = k'
      · have hk : k' ≠ k := fun hk => he (h.trans hk)
        simp [h, hk]
      · simp only [h, decide_false]
        exact ih

theorem get_set (r : Record κ α) (k k' : κ) (a : α) :
    (r.set k a).get k' = if k' = k then some a else r.get k' :=
  find?_setEntries k k' a r.entries

@[simp] theorem get_set_self (r : Record κ α) (k : κ) (a : α) : (r.set k a).get k = some a := by
  rw [get_set, if_pos rfl]

theorem get_set_of_ne (r : Record κ α) {k k' : κ} (a : α) (h : k' ≠ k) :
    (r.set k a).get k' = r.get k' := by
  rw [get_set, if_neg h]

theorem get_delete (r : Record κ α) (k k' : κ) :
    (r.delete k).get k' = if k' = k then none else r.get k' := by
  ext a
  rw [get_eq_some]
  by_cases h : k' = k
  · simp [delete, h]
  · simp [delete, h, get_eq_some]

@[simp] theorem get_filterKeys (r : Record κ α) (p : κ → Bool) (k : κ) :
    (r.filterKeys p).get k = if p k then r.get k else none := by
  ext a
  rw [get_eq_some]
  by_cases h : p k = true
  · simp [filterKeys, h, get_eq_some]
  · simp [filterKeys, h]

/-- A key set twice has its last value; with no key twice that is the only one. -/
theorem get_setAll_eq_some {r : Record κ α} {es : List (κ × α)} (hnodup : (es.map Prod.fst).Nodup)
    {k : κ} {a : α} : (r.setAll es).get k = some a ↔
      (k, a) ∈ es ∨ k ∉ es.map Prod.fst ∧ r.get k = some a := by
  induction es generalizing r with
  | nil => simp [setAll]
  | cons e es ih =>
    obtain ⟨k', a'⟩ := e
    rw [List.map_cons, List.nodup_cons] at hnodup
    have hcons : r.setAll ((k', a') :: es) = (r.set k' a').setAll es := rfl
    rw [hcons, ih hnodup.2, get_set]
    by_cases h : k = k'
    · subst h
      have hmem : (k, a) ∉ es := fun hmem => hnodup.1 (List.mem_map.mpr ⟨(k, a), hmem, rfl⟩)
      simp only [if_pos, Option.some.injEq, hnodup.1, not_false_eq_true, true_and, hmem, false_or,
        List.mem_cons, Prod.mk.injEq, or_false, List.map_cons, not_true_eq_false,
        false_and, eq_comm]
    · simp [h]

/-- The entries of another record come before one's own. -/
theorem get_setAll (r s : Record κ α) (k : κ) :
    (r.setAll s.entries).get k = (s.get k).or (r.get k) := by
  ext a
  rw [get_setAll_eq_some s.nodup, Option.or_eq_some_iff, ← get_eq_some, get_eq_none, keys]

theorem get_ofEntries_eq_some {es : List (κ × α)} (hnodup : (es.map Prod.fst).Nodup) {k : κ} {a : α} :
    (ofEntries es).get k = some a ↔ (k, a) ∈ es := by
  simp [ofEntries, get_setAll_eq_some hnodup]

/-- What is kept is what was there. -/
theorem get_of_get_latest [LinearOrder κ] {r : Record κ α} {max : ℕ} {k : κ} {a : α}
    (h : (r.latest max).get k = some a) : r.get k = some a := by
  have hmem := get_eq_some.mp h
  simp only [latest, pick, List.mem_filterMap, Option.map_eq_some_iff, Prod.mk.injEq] at hmem
  obtain ⟨k', -, a', hget, rfl, rfl⟩ := hmem
  exact hget

end Record

/-! ## The set of keys -/

/-- The `max` greatest elements of a set. -/
def largest [LinearOrder κ] (max : ℕ) (s : Finset κ) : Finset κ :=
  s.filter fun k => (s.filter (k < ·)).card < max

theorem largest_subset [LinearOrder κ] (max : ℕ) (s : Finset κ) : largest max s ⊆ s :=
  Finset.filter_subset ..

@[simp] theorem largest_zero [LinearOrder κ] (s : Finset κ) : largest 0 s = ∅ := by
  simp [largest]

theorem largest_of_card_le [LinearOrder κ] {max : ℕ} {s : Finset κ} (h : s.card ≤ max) :
    largest max s = s := by
  refine Finset.filter_true_of_mem fun k hk => lt_of_lt_of_le (Finset.card_lt_card ?_) h
  exact Finset.filter_ssubset.mpr ⟨k, hk, lt_irrefl k⟩

/-- The greatest elements of a sorted list are at its end. -/
theorem mem_drop_of_sorted [LinearOrder κ] {l : List κ} (h : l.Pairwise (· < ·)) (max : ℕ) (k : κ) :
    k ∈ l.drop (l.length - max) ↔ k ∈ l ∧ (l.filter (k < ·)).length < max := by
  induction l with
  | nil => simp
  | cons a l ih =>
    obtain ⟨hlt, hl⟩ := List.pairwise_cons.mp h
    by_cases hmax : l.length < max
    · -- The whole list is kept.
      rw [List.length_cons, show l.length + 1 - max = 0 by omega, List.drop_zero]
      refine ⟨fun hk => ⟨hk, ?_⟩, And.left⟩
      rcases List.mem_cons.mp hk with rfl | hk
      · have := List.length_filter_le (k < ·) l
        simp only [List.filter_cons, lt_irrefl, decide_false, Bool.false_eq_true, if_false]
        omega
      · have hka := (hlt k hk).not_gt
        have := List.length_filter_le (k < ·) l
        simp only [List.filter_cons, hka, decide_false, Bool.false_eq_true, if_false]
        omega
    · rw [List.length_cons, show l.length + 1 - max = (l.length - max) + 1 by omega,
        List.drop_succ_cons, ih hl]
      constructor
      · rintro ⟨hk, hlen⟩
        have hka := (hlt k hk).not_gt
        refine ⟨List.mem_cons_of_mem a hk, ?_⟩
        simpa [List.filter_cons, hka] using hlen
      · rintro ⟨hk, hlen⟩
        rcases List.mem_cons.mp hk with rfl | hk
        · have hall : l.filter (k < ·) = l := by
            simpa using hlt
          simp only [List.filter_cons, lt_irrefl, decide_false, Bool.false_eq_true, if_false,
            hall] at hlen
          exact absurd hlen hmax
        · have hka := (hlt k hk).not_gt
          refine ⟨hk, ?_⟩
          simpa [List.filter_cons, hka] using hlen

theorem card_largest_le [LinearOrder κ] (max : ℕ) (s : Finset κ) : (largest max s).card ≤ max := by
  rcases (largest max s).eq_empty_or_nonempty with h | h
  · simp [h]
  -- Its least element and the elements of `s` above it are all there is.
  have hmin := (largest max s).min'_mem h
  have hsub : largest max s ⊆
      insert ((largest max s).min' h) (s.filter ((largest max s).min' h < ·)) := by
    intro k hk
    rcases ((largest max s).min'_le k hk).eq_or_lt with he | hlt
    · exact he ▸ Finset.mem_insert_self ..
    · exact Finset.mem_insert_of_mem (Finset.mem_filter.mpr ⟨largest_subset max s hk, hlt⟩)
  have hcount := (Finset.mem_filter.mp hmin).2
  exact (Finset.card_le_card hsub).trans ((Finset.card_insert_le ..).trans hcount)

namespace Record
variable [DecidableEq κ]

def keySet (r : Record κ α) : Finset κ := r.keys.toFinset

theorem mem_keySet {r : Record κ α} {k : κ} : k ∈ r.keySet ↔ ∃ a, r.get k = some a := by
  rw [keySet, List.mem_toFinset, ← Option.isSome_iff_exists, ← Option.ne_none_iff_isSome, ne_eq,
    get_eq_none, not_not]

theorem card_keySet (r : Record κ α) : r.keySet.card = r.size := by
  unfold keySet keys size
  rw [List.toFinset_card_of_nodup r.nodup, List.length_map]

@[simp] theorem keySet_empty : (empty : Record κ α).keySet = ∅ := rfl

@[simp] theorem keySet_set (r : Record κ α) (k : κ) (a : α) :
    (r.set k a).keySet = insert k r.keySet := by
  ext k'
  by_cases h : k' = k <;> simp [mem_keySet, get_set, h]

@[simp] theorem keySet_delete (r : Record κ α) (k : κ) : (r.delete k).keySet = r.keySet.erase k := by
  ext k'
  by_cases h : k' = k <;> simp [mem_keySet, get_delete, h]

theorem keys_pick_of_subset {r : Record κ α} {ks : List κ} (h : ks ⊆ r.keys) :
    (r.pick ks).map Prod.fst = ks := by
  induction ks with
  | nil => rfl
  | cons k ks ih =>
    rw [List.cons_subset] at h
    obtain ⟨a, ha⟩ : ∃ a, r.get k = some a := mem_keySet.mp (List.mem_toFinset.mpr h.1)
    have htail := ih h.2
    unfold pick at htail ⊢
    rw [List.filterMap_cons, ha, Option.map_some, List.map_cons, htail]

@[simp] theorem keySet_latest [LinearOrder κ] (r : Record κ α) (max : ℕ) :
    (r.latest max).keySet = largest max r.keySet := by
  have hperm := List.perm_insertionSort (· ≤ ·) r.keys
  have hnodup : (r.keys.insertionSort (· ≤ ·)).Nodup := hperm.nodup_iff.mpr r.nodup
  have hsorted : (r.keys.insertionSort (· ≤ ·)).Pairwise (· < ·) := by
    have hle := List.pairwise_insertionSort (· ≤ ·) r.keys
    exact (hle.and hnodup).imp fun h => lt_of_le_of_ne h.1 h.2
  have hkeys : (r.latest max).keys =
      (r.keys.insertionSort (· ≤ ·)).drop ((r.keys.insertionSort (· ≤ ·)).length - max) :=
    keys_pick_of_subset fun k hk => hperm.subset (List.drop_subset _ _ hk)
  ext k
  have hcount : ((r.keys.insertionSort (· ≤ ·)).filter (k < ·)).length =
      (r.keySet.filter (k < ·)).card := by
    rw [← List.toFinset_card_of_nodup (hnodup.filter _), List.toFinset_filter,
      List.toFinset_eq_of_perm _ _ hperm]
    simp [keySet]
  rw [keySet, List.mem_toFinset, hkeys, mem_drop_of_sorted hsorted, hcount, hperm.mem_iff]
  rw [largest, Finset.mem_filter, keySet, List.mem_toFinset]

end Record
end Records
