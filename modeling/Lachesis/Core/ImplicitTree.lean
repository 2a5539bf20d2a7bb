import Mathlib.Algebra.Order.BigOperators.Group.Finset

/-!
# Binary trees in arrays

A binary tree of `n` nodes is kept in an array: the children of the node `i` are `2 * i + 1` and
`2 * i + 2`, as far as they are less than `n`. The sum of weights over a subtree is the weight of its
root and the sums over the two subtrees below.
-/

namespace Lachesis.Core

open Finset

/-- The node is in the subtree of `i`. -/
inductive InSubtree (i : ℕ) : ℕ → Prop
  | root : InSubtree i i
  | left {k : ℕ} (h : InSubtree i k) : InSubtree i (2 * k + 1)
  | right {k : ℕ} (h : InSubtree i k) : InSubtree i (2 * k + 2)

namespace InSubtree

variable {i j : ℕ}

lemma le (h : InSubtree i j) : i ≤ j := by
  induction h with
  | root => exact le_rfl
  | left _ ih => omega
  | right _ ih => omega

lemma trans {k : ℕ} (hij : InSubtree i j) (hjk : InSubtree j k) : InSubtree i k := by
  induction hjk with
  | root => exact hij
  | left _ ih => exact left ih
  | right _ ih => exact right ih

/-- Every node is below the root. -/
lemma zero (j : ℕ) : InSubtree 0 j := by
  induction j using Nat.strong_induction_on with
  | _ j ih =>
    rcases Nat.eq_zero_or_pos j with rfl | hj
    · exact root
    · have hparent := ih ((j - 1) / 2) (by omega)
      rcases Nat.mod_two_eq_zero_or_one (j - 1) with hmod | hmod
      · rw [show j = 2 * ((j - 1) / 2) + 1 by omega]
        exact left hparent
      · rw [show j = 2 * ((j - 1) / 2) + 2 by omega]
        exact right hparent

/-- A subtree is its root and the subtrees of its children. -/
lemma iff_children : InSubtree i j ↔ j = i ∨ InSubtree (2 * i + 1) j ∨ InSubtree (2 * i + 2) j := by
  constructor
  · intro h
    induction h with
    | root => exact Or.inl rfl
    | left _ ih =>
      rcases ih with rfl | h | h
      · exact Or.inr (Or.inl root)
      · exact Or.inr (Or.inl (left h))
      · exact Or.inr (Or.inr (left h))
    | right _ ih =>
      rcases ih with rfl | h | h
      · exact Or.inr (Or.inr root)
      · exact Or.inr (Or.inl (right h))
      · exact Or.inr (Or.inr (right h))
  · rintro (rfl | h | h)
    · exact root
    · induction h with
      | root => exact left root
      | left _ ih => exact left ih
      | right _ ih => exact right ih
    · induction h with
      | root => exact right root
      | left _ ih => exact left ih
      | right _ ih => exact right ih

/-- The subtrees of the children are disjoint. -/
lemma not_both (h : InSubtree (2 * i + 1) j) : ¬ InSubtree (2 * i + 2) j := by
  induction h with
  | root =>
    intro h
    have := h.le
    omega
  | @left k hk ih =>
    intro h
    generalize hm : 2 * k + 1 = m at h
    cases h with
    | root => omega
    | @left k' h =>
      obtain rfl : k = k' := by omega
      exact ih h
    | right h => omega
  | @right k hk ih =>
    intro h
    generalize hm : 2 * k + 2 = m at h
    cases h with
    | root =>
      have := hk.le
      omega
    | left h => omega
    | @right k' h =>
      obtain rfl : k = k' := by omega
      exact ih h

end InSubtree

open Classical in
/-- The nodes of the subtree of `i` in a tree of `n` nodes. -/
noncomputable def subtree (n i : ℕ) : Finset ℕ := (range n).filter (InSubtree i)

variable {n i j : ℕ}

@[simp] lemma mem_subtree : j ∈ subtree n i ↔ j < n ∧ InSubtree i j := by
  simp [subtree]

@[simp] lemma subtree_zero (n : ℕ) : subtree n 0 = range n := by
  ext j
  simp [InSubtree.zero]

lemma subtree_of_le (h : n ≤ i) : subtree n i = ∅ := by
  ext j
  simp only [mem_subtree, notMem_empty, iff_false, not_and]
  intro hj hsub
  have := hsub.le
  omega

lemma subtree_subset (n i : ℕ) : subtree n i ⊆ range n := by
  intro j hj
  exact mem_range.mpr (mem_subtree.mp hj).1

variable {M : Type*} [AddCommMonoid M] (w : ℕ → M)

lemma sum_subtree (hi : i < n) : ∑ j ∈ subtree n i, w j =
    w i + ∑ j ∈ subtree n (2 * i + 1), w j + ∑ j ∈ subtree n (2 * i + 2), w j := by
  have hdisjoint : Disjoint (subtree n (2 * i + 1)) (subtree n (2 * i + 2)) := by
    apply disjoint_left.mpr
    intro j hj hj'
    exact (mem_subtree.mp hj).2.not_both (mem_subtree.mp hj').2
  have hnotMem : i ∉ subtree n (2 * i + 1) ∪ subtree n (2 * i + 2) := by
    simp only [mem_union, mem_subtree, not_or, not_and]
    refine ⟨fun _ h => ?_, fun _ h => ?_⟩
    · have := h.le
      omega
    · have := h.le
      omega
  have hsplit : subtree n i =
      insert i (subtree n (2 * i + 1) ∪ subtree n (2 * i + 2)) := by
    ext j
    simp only [mem_insert, mem_union, mem_subtree, InSubtree.iff_children (i := i)]
    constructor
    · rintro ⟨hj, rfl | h | h⟩
      · exact Or.inl rfl
      · exact Or.inr (Or.inl ⟨hj, h⟩)
      · exact Or.inr (Or.inr ⟨hj, h⟩)
    · rintro (rfl | ⟨hj, h⟩ | ⟨hj, h⟩)
      · exact ⟨hi, Or.inl rfl⟩
      · exact ⟨hj, Or.inr (Or.inl h)⟩
      · exact ⟨hj, Or.inr (Or.inr h)⟩
  rw [hsplit, sum_insert hnotMem, sum_union hdisjoint, add_assoc]

/-- Weights outside of a subtree do not count. -/
lemma sum_subtree_update_of_not (h : ¬ InSubtree i j) (a : M) :
    ∑ k ∈ subtree n i, Function.update w j a k = ∑ k ∈ subtree n i, w k := by
  apply sum_congr rfl
  intro k hk
  apply Function.update_of_ne
  rintro rfl
  exact h (mem_subtree.mp hk).2

/-- A weight counts in every subtree it lies in. -/
lemma sum_subtree_update_zero (hj : j < n) (h : InSubtree i j) :
    w j + ∑ k ∈ subtree n i, Function.update w j 0 k = ∑ k ∈ subtree n i, w k := by
  have hmem : j ∈ subtree n i := mem_subtree.mpr ⟨hj, h⟩
  rw [← add_sum_erase _ w hmem, ← add_sum_erase _ (Function.update w j 0) hmem,
    Function.update_self, zero_add]
  congr 1
  apply sum_congr rfl
  intro k hk
  exact Function.update_of_ne (ne_of_mem_erase hk) _ _

end Lachesis.Core
