import Lachesis.Core.ImplicitTree
import Lachesis.Core.Run
import Lachesis.Inter.EventSerializer
import Lachesis.Inter.Pos

/-!
# Weighted permutations

`WeightedPermutation` draws indexes without putting them back, each with a chance proportional to its
weight. The weights are the nodes of a binary tree in an array. A node knows the weight that is left
in the subtrees of its children, so that a draw walks down from the root and takes off the weight of
the chosen index on its way back.
-/

namespace Lachesis

open Lachesis.Core

/-- The ways the functions of `utils/weighted_shuffle.go` panic. -/
inductive ShufflePanic
  /-- `all the weight must be positive` -/
  | nonPositiveWeight
  /-- `the permutation size must be less or equal to weights size` -/
  | tooBigSize
  | divideByZero
  | indexOutOfRange
  /-- The recursion is deeper than it was given steps for. -/
  | outOfFuel
  deriving DecidableEq, Repr

/-- `weightedShuffleNode` -/
structure WeightedShuffleNode where
  thisWeight : Stake
  leftWeight : Stake
  rightWeight : Stake
  deriving DecidableEq, Repr

/-- `weightedShuffleTree` -/
structure WeightedShuffleTree where
  seed : HashBytes
  seedIndex : ℕ
  weights : List Stake
  nodes : List WeightedShuffleNode
  deriving DecidableEq

namespace WeightedShuffleTree

def leftIndex (i : ℕ) : ℕ := 2 * i + 1

def rightIndex (i : ℕ) : ℕ := 2 * i + 2

/-- `weightedShuffleTree.build`: the weight of the subtree, and the nodes with those of the subtree
filled in. -/
def build (weights : List Stake) : (fuel : ℕ) → List WeightedShuffleNode → ℕ →
    Except ShufflePanic (Stake × List WeightedShuffleNode)
  | fuel, nodes, i =>
    match weights[i]?, fuel with
    | none, _ => .ok (0, nodes)
    | some _, 0 => .error .outOfFuel
    | some thisW, fuel + 1 => do
      let (leftW, nodes) ← build weights fuel nodes (leftIndex i)
      let (rightW, nodes) ← build weights fuel nodes (rightIndex i)
      if thisW ≤ 0 then .error .nonPositiveWeight
      else if i < nodes.length then
        return (thisW + leftW + rightW, nodes.set i ⟨thisW, leftW, rightW⟩)
      else .error .indexOutOfRange

section

variable (sha256 : List UInt8 → HashBytes)

/-- `weightedShuffleTree.rand64`: eight bytes of the seed, which is hashed when it is used up. -/
def rand64 (t : WeightedShuffleTree) : Except ShufflePanic (UInt64 × WeightedShuffleTree) :=
  let t := if t.seedIndex = 32 then { t with seed := sha256 t.seed.val, seedIndex := 0 } else t
  if t.seedIndex + 8 ≤ 32 then
    .ok (UInt64.ofNat (leNat ((t.seed.val.drop t.seedIndex).take 8)),
      { t with seedIndex := t.seedIndex + 8 })
  else .error .indexOutOfRange

def modifyNode (t : WeightedShuffleTree) (i : ℕ) (f : WeightedShuffleNode → WeightedShuffleNode) :
    WeightedShuffleTree :=
  { t with nodes := t.nodes.modify i f }

/-- `weightedShuffleTree.retrieve`. The node `i` was read before it is updated, so that it exists. -/
def retrieve : (fuel : ℕ) → WeightedShuffleTree → ℕ → Except ShufflePanic (ℕ × WeightedShuffleTree)
  | 0, _, _ => .error .outOfFuel
  | fuel + 1, t, i =>
    match t.nodes[i]? with
    | none => .error .indexOutOfRange
    | some node => do
      let total := node.rightWeight + node.leftWeight + node.thisWeight
      let (x, t) ← t.rand64 sha256
      if total = 0 then .error .divideByZero
      else
        let r := x % total
        if r < node.thisWeight then
          return (i, t.modifyNode i ({ · with thisWeight := 0 }))
        else if r < node.thisWeight + node.leftWeight then
          let (chosen, t) ← retrieve fuel t (leftIndex i)
          match t.weights[chosen]? with
          | none => .error .indexOutOfRange
          | some weight =>
            return (chosen, t.modifyNode i fun node =>
              { node with leftWeight := node.leftWeight - weight })
        else
          let (chosen, t) ← retrieve fuel t (rightIndex i)
          match t.weights[chosen]? with
          | none => .error .indexOutOfRange
          | some weight =>
            return (chosen, t.modifyNode i fun node =>
              { node with rightWeight := node.rightWeight - weight })

/-- The loop of `WeightedPermutation`. -/
def retrieveAll : (size : ℕ) → WeightedShuffleTree →
    Except ShufflePanic (List ℕ × WeightedShuffleTree)
  | 0, t => .ok ([], t)
  | size + 1, t => do
    let (chosen, t) ← t.retrieve sha256 t.nodes.length 0
    let (rest, t) ← retrieveAll size t
    return (chosen :: rest, t)

end

/-- The tree of `WeightedPermutation` before the first draw. -/
def start (weights : List Stake) (seed : HashBytes) : Except ShufflePanic WeightedShuffleTree := do
  let (_, nodes) ← build weights weights.length (List.replicate weights.length ⟨0, 0, 0⟩) 0
  return ⟨seed, 0, weights, nodes⟩

end WeightedShuffleTree

def weightedPermutation (sha256 : List UInt8 → HashBytes) (size : ℕ) (weights : List Stake)
    (seed : HashBytes) : Except ShufflePanic (List ℕ) :=
  if weights.length < size then .error .tooBigSize
  else if weights.length = 0 then .ok []
  else do
    let tree ← WeightedShuffleTree.start weights seed
    let (permutation, _) ← tree.retrieveAll sha256 size
    return permutation

/-! ### The tree that is built -/

def weightAt (weights : List Stake) (i : ℕ) : ℕ := (weights.getD i 0).toNat

lemma weightAt_of_getElem? {weights : List Stake} {i : ℕ} {x : Stake} (h : weights[i]? = some x) :
    weightAt weights i = x.toNat := by
  rw [weightAt, List.getD_eq_getElem?_getD, h, Option.getD_some]

open WeightedShuffleTree in
/-- The node `i` in a tree of `n` knows what is left of the weights: its own and those of the two
subtrees below. -/
structure WeightedShuffleNode.Balanced (n : ℕ) (w : ℕ → ℕ) (i : ℕ) (node : WeightedShuffleNode) :
    Prop where
  this : node.thisWeight.toNat = w i
  left : node.leftWeight.toNat = ∑ j ∈ subtree n (leftIndex i), w j
  right : node.rightWeight.toNat = ∑ j ∈ subtree n (rightIndex i), w j

namespace WeightedShuffleNode.Balanced

open WeightedShuffleTree

variable {n i j : ℕ} {w : ℕ → ℕ} {node : WeightedShuffleNode}

lemma sum_eq (h : node.Balanced n w i) (hi : i < n) :
    node.thisWeight.toNat + node.leftWeight.toNat + node.rightWeight.toNat =
      ∑ j ∈ subtree n i, w j := by
  rw [h.this, h.left, h.right, sum_subtree w hi, leftIndex, rightIndex]

lemma sum_lt (h : node.Balanced n w i) (hi : i < n) (hsum : ∑ j ∈ Finset.range n, w j < 2 ^ 64) :
    node.thisWeight.toNat + node.leftWeight.toNat + node.rightWeight.toNat < 2 ^ 64 := by
  rw [h.sum_eq hi]
  exact lt_of_le_of_lt (Finset.sum_le_sum_of_subset (subtree_subset n i)) hsum

lemma update_of_not (h : node.Balanced n w i) (hj : ¬ InSubtree i j) (a : ℕ) :
    node.Balanced n (Function.update w j a) i := by
  have hleft : ¬ InSubtree (leftIndex i) j :=
    fun hsub => hj (InSubtree.iff_children.mpr (Or.inr (Or.inl hsub)))
  have hright : ¬ InSubtree (rightIndex i) j :=
    fun hsub => hj (InSubtree.iff_children.mpr (Or.inr (Or.inr hsub)))
  apply Balanced.mk
  · rw [Function.update_of_ne, h.this]
    rintro rfl
    exact hj InSubtree.root
  · rw [sum_subtree_update_of_not w hleft, h.left]
  · rw [sum_subtree_update_of_not w hright, h.right]

end WeightedShuffleNode.Balanced

namespace WeightedShuffleTree

variable {weights : List Stake}

/-- The nodes after the subtree of `i` was built. -/
structure Built (weights : List Stake) (nodes : List WeightedShuffleNode) (i : ℕ)
    (nodes' : List WeightedShuffleNode) : Prop where
  length : nodes'.length = nodes.length
  inside : ∀ k < weights.length, InSubtree i k → ∃ node, nodes'[k]? = some node ∧
    node.Balanced weights.length (weightAt weights) k
  outside : ∀ k, ¬ InSubtree i k → nodes'[k]? = nodes[k]?

lemma lt_leftIndex (i : ℕ) : i < leftIndex i := by
  rw [leftIndex]
  omega

lemma lt_rightIndex (i : ℕ) : i < rightIndex i := by
  rw [rightIndex]
  omega

lemma not_inSubtree_leftIndex (i : ℕ) : ¬ InSubtree (leftIndex i) i :=
  fun h => absurd h.le (not_le.mpr (lt_leftIndex i))

lemma not_inSubtree_rightIndex (i : ℕ) : ¬ InSubtree (rightIndex i) i :=
  fun h => absurd h.le (not_le.mpr (lt_rightIndex i))

/-- A node is built from the weights of its children. -/
lemma Built.node {nodes nodes₁ nodes₂ : List WeightedShuffleNode} {i : ℕ}
    {node : WeightedShuffleNode} (h₁ : Built weights nodes (leftIndex i) nodes₁)
    (h₂ : Built weights nodes₁ (rightIndex i) nodes₂) (hi : i < nodes₂.length)
    (hnode : node.Balanced weights.length (weightAt weights) i) :
    Built weights nodes i (nodes₂.set i node) := by
  have hne : ∀ {k}, k ≠ i → (nodes₂.set i node)[k]? = nodes₂[k]? :=
    fun hk => List.getElem?_set_ne hk.symm
  apply Built.mk
  · rw [List.length_set, h₂.length, h₁.length]
  · intro k hk hsub
    rcases InSubtree.iff_children.mp hsub with rfl | hleft | hright
    · exact ⟨node, List.getElem?_set_self hi, hnode⟩
    · have hki : k ≠ i := by
        rintro rfl
        exact not_inSubtree_leftIndex k hleft
      rw [hne hki, h₂.outside k hleft.not_both]
      exact h₁.inside k hk hleft
    · have hki : k ≠ i := by
        rintro rfl
        exact not_inSubtree_rightIndex k hright
      rw [hne hki]
      exact h₂.inside k hk hright
  · intro k hk
    rw [InSubtree.iff_children, not_or, not_or] at hk
    rw [hne hk.1, h₂.outside k hk.2.2, h₁.outside k hk.2.1]

lemma build_of_le {i : ℕ} (fuel : ℕ) (nodes : List WeightedShuffleNode) (hi : weights.length ≤ i) :
    ∃ s nodes', build weights fuel nodes i = .ok (s, nodes') ∧
      s.toNat = ∑ j ∈ subtree weights.length i, weightAt weights j ∧
      Built weights nodes i nodes' := by
  refine ⟨0, nodes, ?_, ?_, rfl, ?_, fun _ _ => rfl⟩
  · unfold build
    rw [List.getElem?_eq_none hi]
  · rw [subtree_of_le hi]
    rfl
  · intro k hk hsub
    have := hsub.le
    omega

/-- With positive weights whose sum fits into 64 bits, `build` fills in the nodes of the subtree and
returns its weight. -/
lemma build_spec (nodes : List WeightedShuffleNode) (hpos : ∀ x ∈ weights, 0 < x)
    (hsum : ∑ j ∈ Finset.range weights.length, weightAt weights j < 2 ^ 64) {fuel i : ℕ}
    (hfuel : weights.length - i ≤ fuel)
    (hlen : nodes.length = weights.length) :
    ∃ s nodes', build weights fuel nodes i = .ok (s, nodes') ∧
      s.toNat = ∑ j ∈ subtree weights.length i, weightAt weights j ∧
      Built weights nodes i nodes' := by
  induction fuel generalizing i nodes with
  | zero => exact build_of_le 0 nodes (by omega)
  | succ fuel ih =>
    cases hget : weights[i]? with
    | none => exact build_of_le (fuel + 1) nodes (List.getElem?_eq_none_iff.mp hget)
    | some thisW =>
      have hi : i < weights.length := (List.getElem?_eq_some_iff.mp hget).1
      obtain ⟨leftW, nodes₁, hrun₁, hleft, hbuilt₁⟩ := ih nodes (i := leftIndex i)
        (by have := lt_leftIndex i; omega) hlen
      obtain ⟨rightW, nodes₂, hrun₂, hright, hbuilt₂⟩ := ih nodes₁ (i := rightIndex i)
        (by have := lt_rightIndex i; omega) (hbuilt₁.length.trans hlen)
      have hlen₂ : i < nodes₂.length := by
        rw [hbuilt₂.length, hbuilt₁.length, hlen]
        exact hi
      have hthis : 0 < thisW := hpos thisW (List.mem_of_getElem? hget)
      have hnode : (WeightedShuffleNode.mk thisW leftW rightW).Balanced weights.length
          (weightAt weights) i := ⟨(weightAt_of_getElem? hget).symm, hleft, hright⟩
      refine ⟨thisW + leftW + rightW, _, ?_, ?_, hbuilt₁.node hbuilt₂ hlen₂ hnode⟩
      · unfold build
        rw [hget]
        simp only [hrun₁, hrun₂, bind, Except.bind, if_neg (UInt64.not_le.mpr hthis),
          if_pos hlen₂]
        rfl
      · have hlt := hnode.sum_lt hi hsum
        rw [← hnode.sum_eq hi, UInt64.toNat_add, UInt64.toNat_add, Nat.mod_add_mod]
        exact Nat.mod_eq_of_lt hlt

/-! ### Draws -/

/-- A tree of the weights, with a part of the seed to be used next. -/
structure Shaped (weights : List Stake) (t : WeightedShuffleTree) : Prop where
  weights_eq : t.weights = weights
  length : t.nodes.length = weights.length
  seedIndex_le : t.seedIndex ≤ 32
  seedIndex_mod : t.seedIndex % 8 = 0

lemma Shaped.modifyNode {t : WeightedShuffleTree} (h : t.Shaped weights) (i : ℕ)
    (f : WeightedShuffleNode → WeightedShuffleNode) : (t.modifyNode i f).Shaped weights :=
  ⟨h.weights_eq, by simp [WeightedShuffleTree.modifyNode, h.length], h.seedIndex_le,
    h.seedIndex_mod⟩

/-- A tree with the weights `w` left. -/
structure Ready (weights : List Stake) (w : ℕ → ℕ) (t : WeightedShuffleTree) : Prop
    extends t.Shaped weights where
  balanced : ∀ k < weights.length, ∃ node, t.nodes[k]? = some node ∧
    node.Balanced weights.length w k

/-- The tree `t'` after the index `j` was drawn from the subtree of `i`: the nodes of the subtree
know that it is taken, the others are as before. -/
structure Drawn (weights : List Stake) (w : ℕ → ℕ) (t : WeightedShuffleTree) (i j : ℕ)
    (t' : WeightedShuffleTree) : Prop extends t'.Shaped weights where
  lt : j < weights.length
  inSubtree : InSubtree i j
  weight : w j = weightAt weights j
  pos : 0 < w j
  inside : ∀ k < weights.length, InSubtree i k → ∃ node, t'.nodes[k]? = some node ∧
    node.Balanced weights.length (Function.update w j 0) k
  outside : ∀ k, ¬ InSubtree i k → t'.nodes[k]? = t.nodes[k]?

variable {w : ℕ → ℕ} {t t' : WeightedShuffleTree} {i j : ℕ} {sha256 : List UInt8 → HashBytes}

lemma Drawn.ready (h : Drawn weights w t 0 j t') : t'.Ready weights (Function.update w j 0) :=
  ⟨h.toShaped, fun k hk => h.inside k hk (InSubtree.zero k)⟩

/-- There are always eight bytes of a seed. -/
lemma Ready.rand64 (h : t.Ready weights w) : ∃ x t', t.rand64 sha256 = .ok (x, t') ∧
    t'.nodes = t.nodes ∧ t'.Ready weights w := by
  have hle := h.seedIndex_le
  have hmod := h.seedIndex_mod
  unfold WeightedShuffleTree.rand64
  by_cases h32 : t.seedIndex = 32
  · refine ⟨_, _, if_pos (by simp [h32]), by rw [if_pos h32], ?_⟩
    rw [if_pos h32]
    exact ⟨⟨h.weights_eq, h.length, by simp, by simp⟩, h.balanced⟩
  · refine ⟨_, _, if_pos (by rw [if_neg h32]; omega), by rw [if_neg h32], ?_⟩
    rw [if_neg h32]
    exact ⟨⟨h.weights_eq, h.length, by simp only; omega, by simp only; omega⟩, h.balanced⟩

lemma getElem?_modifyNode_self (t : WeightedShuffleTree) {node : WeightedShuffleNode}
    (f : WeightedShuffleNode → WeightedShuffleNode) (h : t.nodes[i]? = some node) :
    (t.modifyNode i f).nodes[i]? = some (f node) := by
  simp [modifyNode, h]

lemma getElem?_modifyNode_ne (t : WeightedShuffleTree) {k : ℕ}
    (f : WeightedShuffleNode → WeightedShuffleNode) (h : k ≠ i) :
    (t.modifyNode i f).nodes[k]? = t.nodes[k]? := by
  simp [modifyNode, h.symm]

lemma Ready.drawn_self {node : WeightedShuffleNode} (h : t.Ready weights w)
    (hw : w i = weightAt weights i) (hpos : 0 < w i) (hi : i < weights.length)
    (hnode : t.nodes[i]? = some node) (hbal : node.Balanced weights.length w i) :
    Drawn weights w t i i (t.modifyNode i ({ · with thisWeight := 0 })) := by
  refine ⟨h.toShaped.modifyNode i _, hi, InSubtree.root, hw, hpos, ?_, ?_⟩
  · intro k hk hsub
    by_cases hki : k = i
    · subst hki
      refine ⟨_, getElem?_modifyNode_self t _ hnode, ?_, ?_, ?_⟩
      · simp
      · rw [sum_subtree_update_of_not w (not_inSubtree_leftIndex k)]
        exact hbal.left
      · rw [sum_subtree_update_of_not w (not_inSubtree_rightIndex k)]
        exact hbal.right
    · obtain ⟨node', hnode', hbal'⟩ := h.balanced k hk
      refine ⟨node', by rw [getElem?_modifyNode_ne t _ hki, hnode'], hbal'.update_of_not ?_ 0⟩
      intro hback
      exact hki (le_antisymm hback.le hsub.le)
  · intro k hk
    apply getElem?_modifyNode_ne
    rintro rfl
    exact hk InSubtree.root

section

variable {node : WeightedShuffleNode} (ht : t.Ready weights w) (hnode : t.nodes[i]? = some node)
include ht hnode

/-- A draw from the subtree of a child `c`, whose sibling is `c'`, is one from the subtree of the
node, once the node knows it. -/
lemma Drawn.up {c c' : ℕ} {f : WeightedShuffleNode → WeightedShuffleNode}
    (hchildren : ∀ k, InSubtree i k ↔ k = i ∨ InSubtree c k ∨ InSubtree c' k)
    (hapart : ∀ k, InSubtree c k → ¬ InSubtree c' k) (hc : i < c) (hc' : i < c')
    (h : Drawn weights w t c j t')
    (hbal : (f node).Balanced weights.length (Function.update w j 0) i) :
    Drawn weights w t i j (t'.modifyNode i f) := by
  have hnot : ∀ {d}, i < d → ¬ InSubtree d i := fun hd hsub => absurd hsub.le (not_le.mpr hd)
  refine ⟨h.toShaped.modifyNode i f, h.lt, (hchildren j).mpr (Or.inr (Or.inl h.inSubtree)), h.weight,
    h.pos, ?_, ?_⟩
  · intro k hk hsub
    rcases (hchildren k).mp hsub with rfl | hck | hck
    · refine ⟨f node, getElem?_modifyNode_self t' f ?_, hbal⟩
      rw [h.outside k (hnot hc), hnode]
    · have hki : k ≠ i := by
        rintro rfl
        exact hnot hc hck
      rw [getElem?_modifyNode_ne t' f hki]
      exact h.inside k hk hck
    · have hki : k ≠ i := by
        rintro rfl
        exact hnot hc' hck
      -- the other subtree does not contain the chosen index
      obtain ⟨node', hnode', hbal'⟩ := ht.balanced k hk
      refine ⟨node', ?_, hbal'.update_of_not ?_ 0⟩
      · rw [getElem?_modifyNode_ne t' f hki, h.outside k fun hsub => hapart k hsub hck, hnode']
      · intro hkj
        exact hapart j h.inSubtree (hck.trans hkj)
  · intro k hk
    rw [hchildren, not_or, not_or] at hk
    rw [getElem?_modifyNode_ne t' f hk.1, h.outside k hk.2.1]

lemma Drawn.up_left {weight : Stake} (h : Drawn weights w t (leftIndex i) j t')
    (hbal : node.Balanced weights.length w i) (hweight : weight.toNat = w j) :
    Drawn weights w t i j (t'.modifyNode i fun node =>
      { node with leftWeight := node.leftWeight - weight }) := by
  have hsub := sum_subtree_update_zero w h.lt h.inSubtree
  have hle : weight ≤ node.leftWeight := by
    rw [UInt64.le_iff_toNat_le, hbal.left, hweight]
    omega
  have hapart : ∀ k, InSubtree (leftIndex i) k → ¬ InSubtree (rightIndex i) k :=
    fun k hk => hk.not_both
  have hchildren : ∀ k, InSubtree i k ↔
      k = i ∨ InSubtree (leftIndex i) k ∨ InSubtree (rightIndex i) k :=
    fun k => InSubtree.iff_children
  refine h.up ht hnode hchildren hapart (lt_leftIndex i) (lt_rightIndex i) ⟨?_, ?_, ?_⟩
  · rw [Function.update_of_ne, hbal.this]
    rintro rfl
    exact not_inSubtree_leftIndex _ h.inSubtree
  · rw [UInt64.toNat_sub_of_le _ _ hle, hbal.left, hweight]
    omega
  · rw [sum_subtree_update_of_not w (hapart j h.inSubtree)]
    exact hbal.right

lemma Drawn.up_right {weight : Stake} (h : Drawn weights w t (rightIndex i) j t')
    (hbal : node.Balanced weights.length w i) (hweight : weight.toNat = w j) :
    Drawn weights w t i j (t'.modifyNode i fun node =>
      { node with rightWeight := node.rightWeight - weight }) := by
  have hsub := sum_subtree_update_zero w h.lt h.inSubtree
  have hle : weight ≤ node.rightWeight := by
    rw [UInt64.le_iff_toNat_le, hbal.right, hweight]
    omega
  have hapart : ∀ k, InSubtree (rightIndex i) k → ¬ InSubtree (leftIndex i) k :=
    fun k hk hk' => hk'.not_both hk
  have hchildren : ∀ k, InSubtree i k ↔
      k = i ∨ InSubtree (rightIndex i) k ∨ InSubtree (leftIndex i) k := by
    intro k
    rw [InSubtree.iff_children, or_comm (a := InSubtree (2 * i + 1) k)]
    rfl
  refine h.up ht hnode hchildren hapart (lt_rightIndex i) (lt_leftIndex i) ⟨?_, ?_, ?_⟩
  · rw [Function.update_of_ne, hbal.this]
    rintro rfl
    exact not_inSubtree_rightIndex _ h.inSubtree
  · rw [sum_subtree_update_of_not w (hapart j h.inSubtree)]
    exact hbal.left
  · rw [UInt64.toNat_sub_of_le _ _ hle, hbal.right, hweight]
    omega

end

lemma Drawn.getElem?_weights (h : Drawn weights w t i j t') :
    ∃ weight, t'.weights[j]? = some weight ∧ weight.toNat = w j := by
  obtain ⟨weight, hget⟩ : ∃ weight, weights[j]? = some weight := ⟨_, List.getElem?_eq_getElem h.lt⟩
  exact ⟨weight, by rw [h.weights_eq, hget], by rw [h.weight, weightAt_of_getElem? hget]⟩

/-- Drawing a random number does not change the nodes. -/
lemma Drawn.of_nodes_eq {t₁ : WeightedShuffleTree} (h : Drawn weights w t₁ i j t')
    (hnodes : t₁.nodes = t.nodes) : Drawn weights w t i j t' :=
  { h with outside := fun k hk => hnodes ▸ h.outside k hk }

lemma lt_of_sum_subtree_pos {n : ℕ} (hpos : 0 < ∑ k ∈ subtree n i, w k) : i < n := by
  by_contra hge
  rw [subtree_of_le (not_lt.mp hge), Finset.sum_empty] at hpos
  exact lt_irrefl 0 hpos

/-- A draw from a subtree with some weight left: nothing panics, whatever the random numbers are. -/
lemma Ready.retrieve (hw : ∀ k, 0 < w k → w k = weightAt weights k)
    (hsum : ∑ k ∈ Finset.range weights.length, w k < 2 ^ 64) {fuel : ℕ} (h : t.Ready weights w)
    (hfuel : weights.length - i ≤ fuel) (hpos : 0 < ∑ k ∈ subtree weights.length i, w k) :
    ∃ j t', t.retrieve sha256 fuel i = .ok (j, t') ∧ Drawn weights w t i j t' := by
  have hi := lt_of_sum_subtree_pos hpos
  induction fuel generalizing t i with
  | zero => omega
  | succ fuel ih =>
    obtain ⟨node, hnode, hbal⟩ := h.balanced i hi
    obtain ⟨x, t₁, hrand, hnodes, h₁⟩ : ∃ x t₁, t.rand64 sha256 = .ok (x, t₁) ∧
      t₁.nodes = t.nodes ∧ t₁.Ready weights w := h.rand64
    have hnode₁ : t₁.nodes[i]? = some node := by rw [hnodes, hnode]
    have hsumEq := hbal.sum_eq hi
    have hlt := hbal.sum_lt hi hsum
    have htotal : (node.rightWeight + node.leftWeight + node.thisWeight).toNat =
        ∑ k ∈ subtree weights.length i, w k := by
      rw [UInt64.toNat_add, UInt64.toNat_add, Nat.mod_add_mod, Nat.mod_eq_of_lt (by omega)]
      omega
    have hthisLeft : (node.thisWeight + node.leftWeight).toNat =
        node.thisWeight.toNat + node.leftWeight.toNat := by
      rw [UInt64.toNat_add, Nat.mod_eq_of_lt (by omega)]
    have hr : (x % (node.rightWeight + node.leftWeight + node.thisWeight)).toNat <
        ∑ k ∈ subtree weights.length i, w k := by
      rw [UInt64.toNat_mod, htotal]
      exact Nat.mod_lt _ hpos
    have hne : node.rightWeight + node.leftWeight + node.thisWeight ≠ 0 := by
      intro h₀
      rw [h₀, UInt64.toNat_zero] at htotal
      omega
    simp only [WeightedShuffleTree.retrieve, hnode, hrand, bind, Except.bind, if_neg hne]
    split_ifs with hthis hleft
    · -- the node itself
      rw [UInt64.lt_iff_toNat_lt] at hthis
      have hwi : 0 < w i := by
        rw [← hbal.this]
        omega
      exact ⟨i, _, rfl, (h₁.drawn_self (hw i hwi) hwi hi hnode₁ hbal).of_nodes_eq hnodes⟩
    · -- the left subtree has some weight left, since the node itself is not chosen
      rw [UInt64.lt_iff_toNat_lt] at hthis hleft
      have hsub : 0 < ∑ k ∈ subtree weights.length (leftIndex i), w k := by
        rw [← hbal.left]
        omega
      have hlti := lt_leftIndex i
      obtain ⟨j, t₂, hrun, hdrawn⟩ := ih h₁ (by omega) hsub (lt_of_sum_subtree_pos hsub)
      obtain ⟨weight, hget, hweight⟩ := hdrawn.getElem?_weights
      simp only [hrun, hget]
      exact ⟨j, _, rfl, (hdrawn.up_left h₁ hnode₁ hbal hweight).of_nodes_eq hnodes⟩
    · rw [UInt64.lt_iff_toNat_lt] at hthis hleft
      have hsub : 0 < ∑ k ∈ subtree weights.length (rightIndex i), w k := by
        rw [← hbal.right]
        omega
      have hlti := lt_rightIndex i
      obtain ⟨j, t₂, hrun, hdrawn⟩ := ih h₁ (by omega) hsub (lt_of_sum_subtree_pos hsub)
      obtain ⟨weight, hget, hweight⟩ := hdrawn.getElem?_weights
      simp only [hrun, hget]
      exact ⟨j, _, rfl, (hdrawn.up_right h₁ hnode₁ hbal hweight).of_nodes_eq hnodes⟩

/-! ### The permutation -/

/-- The weights that are left when some indexes are taken. -/
def remaining (weights : List Stake) (taken : List ℕ) (i : ℕ) : ℕ :=
  if i ∈ taken then 0 else weightAt weights i

lemma remaining_nil (weights : List Stake) : remaining weights [] = weightAt weights := by
  funext i
  simp [remaining]

lemma update_remaining (weights : List Stake) (taken : List ℕ) (j : ℕ) :
    Function.update (remaining weights taken) j 0 = remaining weights (taken ++ [j]) := by
  funext i
  by_cases h : i = j
  · simp [remaining, h]
  · simp [remaining, h]

variable {taken : List ℕ}

lemma remaining_of_pos (k : ℕ) (h : 0 < remaining weights taken k) :
    remaining weights taken k = weightAt weights k := by
  unfold remaining at h ⊢
  split_ifs at h ⊢ with hk
  · exact absurd h (lt_irrefl 0)
  · rfl

lemma remaining_le (weights : List Stake) (taken : List ℕ) (k : ℕ) :
    remaining weights taken k ≤ weightAt weights k := by
  unfold remaining
  split_ifs
  · exact Nat.zero_le _
  · exact le_rfl

lemma sum_remaining_pos (hpos : ∀ x ∈ weights, 0 < x) (hlen : taken.length < weights.length) :
    0 < ∑ k ∈ Finset.range weights.length, remaining weights taken k := by
  have hcard : taken.toFinset.card < (Finset.range weights.length).card := by
    rw [Finset.card_range]
    exact lt_of_le_of_lt (List.toFinset_card_le taken) hlen
  obtain ⟨k, hk, hnot⟩ := Finset.exists_mem_notMem_of_card_lt_card hcard
  have hkn : k < weights.length := Finset.mem_range.mp hk
  refine Finset.sum_pos' (fun _ _ => Nat.zero_le _) ⟨k, hk, ?_⟩
  rw [remaining, if_neg (by simpa using hnot),
    weightAt_of_getElem? (List.getElem?_eq_getElem hkn)]
  exact UInt64.lt_iff_toNat_lt.mp (hpos _ (List.getElem_mem hkn))

/-- No index is drawn twice. -/
lemma Ready.retrieveAll (sha256 : List UInt8 → HashBytes) (size : ℕ)
    (h : t.Ready weights (remaining weights taken)) (hpos : ∀ x ∈ weights, 0 < x)
    (hsum : ∑ k ∈ Finset.range weights.length, weightAt weights k < 2 ^ 64) (hnodup : taken.Nodup)
    (hsize : taken.length + size ≤ weights.length) :
    ∃ drawn t', t.retrieveAll sha256 size = .ok (drawn, t') ∧ drawn.length = size ∧
      (taken ++ drawn).Nodup ∧ (∀ j ∈ drawn, j < weights.length) ∧
      t'.Ready weights (remaining weights (taken ++ drawn)) := by
  induction size generalizing t taken with
  | zero => exact ⟨[], t, rfl, rfl, by simpa using hnodup, by simp, by simpa using h⟩
  | succ size ih =>
    have hleft : ∑ k ∈ Finset.range weights.length, remaining weights taken k < 2 ^ 64 :=
      lt_of_le_of_lt (Finset.sum_le_sum fun k _ => remaining_le weights taken k) hsum
    obtain ⟨j, t₁, hrun, hdrawn⟩ : ∃ j t₁, t.retrieve sha256 t.nodes.length 0 = .ok (j, t₁) ∧
        Drawn weights (remaining weights taken) t 0 j t₁ := by
      apply h.retrieve remaining_of_pos hleft
      · rw [h.length]
        omega
      · rw [subtree_zero]
        exact sum_remaining_pos hpos (by omega)
    have hj : j ∉ taken := by
      intro hmem
      have hjpos := hdrawn.pos
      rw [remaining, if_pos hmem] at hjpos
      exact lt_irrefl 0 hjpos
    have hready := hdrawn.ready
    rw [update_remaining] at hready
    have hnodup₁ : (taken ++ [j]).Nodup := by
      apply List.Nodup.append hnodup (List.nodup_singleton j)
      simpa using hj
    obtain ⟨drawn, t₂, hrest, hlen, hnodup', hlt, hready'⟩ := ih hready hnodup₁
      (by rw [List.length_append, List.length_singleton]; omega)
    rw [List.append_assoc, List.singleton_append] at hnodup' hready'
    refine ⟨j :: drawn, t₂, ?_, by simp [hlen], hnodup', ?_, hready'⟩
    · simp only [WeightedShuffleTree.retrieveAll, hrun, hrest, bind, Except.bind]
      rfl
    · simpa using ⟨hdrawn.lt, hlt⟩

/-- A shorter permutation is the beginning of a longer one. -/
lemma retrieveAll_take {size k : ℕ} {drawn : List ℕ} (hk : k ≤ size)
    (h : t.retrieveAll sha256 size = .ok (drawn, t')) :
    ∃ t'', t.retrieveAll sha256 k = .ok (drawn.take k, t'') := by
  induction size generalizing t k drawn with
  | zero =>
    obtain rfl : k = 0 := by omega
    exact ⟨t, rfl⟩
  | succ size ih =>
    simp only [WeightedShuffleTree.retrieveAll, bind, bind_eq_ok_iff, Prod.exists] at h
    obtain ⟨j, t₁, hrun, rest, t₂, hrest, heq⟩ := h
    cases heq
    cases k with
    | zero => exact ⟨t, rfl⟩
    | succ k =>
      obtain ⟨t'', ht''⟩ := ih (Nat.le_of_succ_le_succ hk) hrest
      refine ⟨t'', ?_⟩
      simp only [WeightedShuffleTree.retrieveAll, hrun, ht'', bind, Except.bind]
      rfl

lemma start_ready (hpos : ∀ x ∈ weights, 0 < x)
    (hsum : ∑ k ∈ Finset.range weights.length, weightAt weights k < 2 ^ 64) (seed : HashBytes) :
    ∃ tree, start weights seed = .ok tree ∧ tree.Ready weights (remaining weights []) := by
  obtain ⟨s, nodes, hrun, -, hbuilt⟩ := build_spec
    (List.replicate weights.length ⟨0, 0, 0⟩) hpos hsum (i := 0) (Nat.sub_le _ _) List.length_replicate
  refine ⟨⟨seed, 0, weights, nodes⟩, ?_, ⟨rfl, ?_, by simp, by simp⟩, ?_⟩
  · simp only [start, hrun, bind, Except.bind]
    rfl
  · rw [hbuilt.length, List.length_replicate]
  · intro k hk
    rw [remaining_nil]
    exact hbuilt.inside k hk (InSubtree.zero k)

end WeightedShuffleTree

lemma sum_weightAt (weights : List Stake) :
    ∑ k ∈ Finset.range weights.length, weightAt weights k = (weights.map UInt64.toNat).sum := by
  induction weights with
  | nil => rfl
  | cons x weights ih =>
    rw [List.length_cons, Finset.sum_range_succ', List.map_cons, List.sum_cons, ← ih, add_comm]
    rfl

open WeightedShuffleTree

variable {weights : List Stake} {sha256 : List UInt8 → HashBytes} {seed : HashBytes}

/-- The permutations of all sizes are the beginnings of one order of the indexes. Each is drawn from
a tree that, after every draw, knows the weights that are left. -/
structure Shuffles (sha256 : List UInt8 → HashBytes) (weights : List Stake) (seed : HashBytes)
    (perm : List ℕ) : Prop where
  perm_range : perm.Perm (List.range weights.length)
  eq_take : ∀ k ≤ weights.length, weightedPermutation sha256 k weights seed = .ok (perm.take k)
  tree : ∀ k ≤ weights.length, ∃ tree t, start weights seed = .ok tree ∧
    tree.retrieveAll sha256 k = .ok (perm.take k, t) ∧
    t.Ready weights (remaining weights (perm.take k))

lemma weightedPermutation_eq {k : ℕ} {tree t : WeightedShuffleTree} {drawn : List ℕ}
    (hk : k ≤ weights.length) (hstart : start weights seed = .ok tree)
    (hrun : tree.retrieveAll sha256 k = .ok (drawn, t)) :
    weightedPermutation sha256 k weights seed = .ok drawn := by
  unfold weightedPermutation
  rw [if_neg (not_lt.mpr hk)]
  split_ifs with hzero
  · obtain rfl : k = 0 := by omega
    cases hrun
    rfl
  · simp only [hstart, hrun, bind, Except.bind]
    rfl

lemma exists_shuffles (sha256 : List UInt8 → HashBytes) (seed : HashBytes)
    (hpos : ∀ x ∈ weights, 0 < x) (hsum : (weights.map UInt64.toNat).sum < 2 ^ 64) :
    ∃ perm, Shuffles sha256 weights seed perm := by
  rw [← sum_weightAt] at hsum
  obtain ⟨tree, hstart, hready⟩ := start_ready hpos hsum seed
  obtain ⟨perm, t, hrun, hlen, hnodup, hlt, -⟩ := hready.retrieveAll sha256 weights.length hpos
    hsum List.nodup_nil (by simp)
  have htake : ∀ k ≤ weights.length, ∃ t, tree.retrieveAll sha256 k = .ok (perm.take k, t) ∧
      t.Ready weights (remaining weights (perm.take k)) := by
    intro k hk
    obtain ⟨t₁, hrun₁⟩ := retrieveAll_take hk hrun
    obtain ⟨drawn, t₂, hrun₂, -, -, -, hready₂⟩ := hready.retrieveAll sha256 k hpos hsum
      List.nodup_nil (by simpa using hk)
    obtain ⟨rfl, rfl⟩ := Prod.mk.inj (Except.ok.inj (hrun₁.symm.trans hrun₂))
    exact ⟨t₁, hrun₁, hready₂⟩
  refine ⟨perm, ?_, fun k hk => ?_, fun k hk => ?_⟩
  · apply List.Subperm.perm_of_length_le
    · apply List.subperm_of_subset hnodup
      intro j hj
      exact List.mem_range.mpr (hlt j hj)
    · rw [List.length_range, hlen]
  · obtain ⟨t₁, hrun₁, -⟩ := htake k hk
    exact weightedPermutation_eq hk hstart hrun₁
  · obtain ⟨t₁, hrun₁, hready₁⟩ := htake k hk
    exact ⟨tree, t₁, hstart, hrun₁, hready₁⟩

end Lachesis
