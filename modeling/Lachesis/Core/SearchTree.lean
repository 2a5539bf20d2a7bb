import Mathlib.Data.List.TakeWhile
import Std.Data.ExtTreeMap

/-!
# Search trees

Binary trees with their keys in order, and the nodes of a tree with the links to their parents. A
node splits the pairs of its tree, read from left to right, into those before it and those after it.

The shape of the tree is left open: whatever keeps it balanced does not matter here.
-/

namespace Lachesis.Core

open Std

/-- A binary tree. -/
inductive SearchTree (κ α : Type)
  | leaf
  | node (left : SearchTree κ α) (key : κ) (val : α) (right : SearchTree κ α)

/-- A link to a parent: its pair and its other child. -/
inductive ParentLink (κ α : Type)
  /-- The link of a left child. -/
  | left (key : κ) (val : α) (right : SearchTree κ α)
  /-- The link of a right child. -/
  | right (left : SearchTree κ α) (key : κ) (val : α)

/-- A node of a tree, with the links up to the root. -/
structure TreeNode (κ α : Type) where
  left : SearchTree κ α
  key : κ
  val : α
  right : SearchTree κ α
  parents : List (ParentLink κ α)

variable {κ α : Type}

namespace SearchTree

/-- The pairs from left to right. -/
def toList : SearchTree κ α → List (κ × α)
  | leaf => []
  | node left key val right => left.toList ++ (key, val) :: right.toList

/-- The pairs that the parents have to the left. -/
def linksBefore : List (ParentLink κ α) → List (κ × α)
  | [] => []
  | .left _ _ _ :: links => linksBefore links
  | .right left key val :: links => linksBefore links ++ left.toList ++ [(key, val)]

/-- The pairs that the parents have to the right. -/
def linksAfter : List (ParentLink κ α) → List (κ × α)
  | [] => []
  | .left key val right :: links => (key, val) :: right.toList ++ linksAfter links
  | .right _ _ _ :: links => linksAfter links

/-- The first node of a tree below the given links. -/
def leftmost : SearchTree κ α → List (ParentLink κ α) → Option (TreeNode κ α)
  | leaf, _ => none
  | node left key val right, links =>
    (leftmost left (.left key val right :: links)).or (some ⟨left, key, val, right, links⟩)

end SearchTree

namespace TreeNode

def pair (n : TreeNode κ α) : κ × α := (n.key, n.val)

def before (n : TreeNode κ α) : List (κ × α) :=
  SearchTree.linksBefore n.parents ++ n.left.toList

def after (n : TreeNode κ α) : List (κ × α) :=
  n.right.toList ++ SearchTree.linksAfter n.parents

/-- The pairs of the tree of a node. -/
def all (n : TreeNode κ α) : List (κ × α) := n.before ++ n.pair :: n.after

end TreeNode

/-! ### Sorted pairs -/

/-- The keys are in order. -/
def SortedPairs [Ord κ] (l : List (κ × α)) : Prop := l.Pairwise fun a b => compare a.1 b.1 = .lt

variable {l : List (κ × α)}

namespace SortedPairs

variable [Ord κ]

lemma exists_cons {p : κ × α} (h : SortedPairs l) (hp : p ∈ l)
    (hmin : ∀ q ∈ l, compare q.1 p.1 ≠ .lt) : ∃ l', l = p :: l' := by
  cases l with
  | nil => simp at hp
  | cons q l =>
    rcases List.mem_cons.mp hp with rfl | hp
    · exact ⟨l, rfl⟩
    · exact absurd ((List.pairwise_cons.mp h).1 p hp) (hmin q (by simp))

variable [TransOrd κ]

lemma eq_of_mem_iff {l' : List (κ × α)} (h : SortedPairs l) (h' : SortedPairs l')
    (hmem : ∀ p, p ∈ l ↔ p ∈ l') : l = l' := by
  have hnd : ∀ {l : List (κ × α)}, SortedPairs l → l.Nodup := fun h => h.imp fun {a b} hab heq => by
    rw [heq, compare_self] at hab
    cases hab
  refine ((List.perm_ext_iff_of_nodup (hnd h) (hnd h')).mpr hmem).eq_of_pairwise ?_ h h'
  intro a b _ _ hab hba
  rw [OrientedCmp.gt_of_lt hab] at hba
  cases hba

end SortedPairs

/-! ### Nodes in order -/

namespace SearchTree

variable {links : List (ParentLink κ α)} {t : SearchTree κ α}

lemma leftmost_eq_none (h : leftmost t links = none) : t = leaf := by
  cases t with
  | leaf => rfl
  | node left key val right => simp [leftmost] at h

/-- The first node has all other pairs after it. -/
lemma leftmost_eq_some {n : TreeNode κ α} (h : leftmost t links = some n) :
    n.before = linksBefore links ∧ n.pair :: n.after = t.toList ++ linksAfter links := by
  induction t generalizing links with
  | leaf => simp [leftmost] at h
  | node left key val right ihl ihr =>
    rw [leftmost] at h
    cases hl : leftmost left (.left key val right :: links) with
    | none =>
      rw [hl, Option.none_or, Option.some.injEq] at h
      subst h
      obtain rfl := leftmost_eq_none hl
      simp [TreeNode.before, TreeNode.after, TreeNode.pair, toList]
    | some m =>
      rw [hl, Option.some_or, Option.some.injEq] at h
      subst h
      obtain ⟨hb, ha⟩ := ihl hl
      refine ⟨hb, ?_⟩
      rw [ha, linksAfter, toList]
      simp

variable [Ord κ] [TransOrd κ]

/-- Everything before the node that the search finds is less than the key, and the node is not. -/
structure IsCeiling (l : List (κ × α)) (k : κ) (n : TreeNode κ α) : Prop where
  all : n.all = l
  before : ∀ p ∈ n.before, compare p.1 k = .lt
  key : compare n.key k ≠ .lt

end SearchTree

/-- A search tree with the lookups that come with it: the first node whose key is not less than a
given one, and the first node of all. -/
structure LookupTree (κ α : Type) [Ord κ] where
  root : SearchTree κ α
  ceiling : κ → Option (TreeNode κ α)
  left : Option (TreeNode κ α)
  ceiling_eq_none : SortedPairs root.toList → ∀ k, ceiling k = none →
    ∀ p ∈ root.toList, compare p.1 k = .lt
  ceiling_eq_some : SortedPairs root.toList → ∀ k n, ceiling k = some n →
    SearchTree.IsCeiling root.toList k n
  left_eq_none : left = none → root.toList = []
  left_eq_some : ∀ n, left = some n → n.before = [] ∧ n.pair :: n.after = root.toList

/-- The pairs from left to right. -/
abbrev LookupTree.toList [Ord κ] (t : LookupTree κ α) : List (κ × α) := t.root.toList

/-! ### A tree for every list -/

namespace SearchTree

/-- The tree whose nodes have no left children. -/
def spine : List (κ × α) → SearchTree κ α
  | [] => leaf
  | p :: l => node leaf p.1 p.2 (spine l)

lemma toList_spine (l : List (κ × α)) : (spine l).toList = l := by
  induction l with
  | nil => rfl
  | cons p l ih => rw [spine, toList, ih, toList, List.nil_append]

/-- Its first node with a pair that does not have the property. -/
def firstNot (f : κ × α → Bool) (l : List (κ × α)) : Option (TreeNode κ α) :=
  match l.dropWhile f with
  | [] => none
  | p :: after => some ⟨leaf, p.1, p.2, spine after,
      (l.takeWhile f).reverse.map fun q => .right leaf q.1 q.2⟩

lemma links_spine (l : List (κ × α)) :
    linksBefore (l.map fun q => .right leaf q.1 q.2) = l.reverse ∧
      linksAfter (l.map fun q => .right leaf q.1 q.2) = [] := by
  induction l with
  | nil => exact ⟨rfl, rfl⟩
  | cons p l ih => exact ⟨by simp [linksBefore, ih.1, toList], ih.2⟩

lemma firstNot_eq_none {f : κ × α → Bool} (h : firstNot f l = none) : ∀ p ∈ l, f p := by
  rw [firstNot] at h
  split at h
  · exact List.dropWhile_eq_nil_iff.mp (by assumption)
  · cases h

lemma firstNot_eq_some {f : κ × α → Bool} {n : TreeNode κ α} (h : firstNot f l = some n) :
    n.before = l.takeWhile f ∧ n.pair :: n.after = l.dropWhile f := by
  rw [firstNot] at h
  split at h
  · cases h
  · next p after hdrop =>
    cases h
    obtain ⟨hbefore, hafter⟩ := links_spine (l.takeWhile f).reverse
    rw [hdrop, TreeNode.before, TreeNode.after, hbefore, hafter, toList_spine]
    simp [toList, TreeNode.pair]

/-- Trees with lookups exist, whatever pairs they have to hold. -/
theorem exists_lookupTree [Ord κ] (l : List (κ × α)) : ∃ t : LookupTree κ α, t.toList = l := by
  have hl := toList_spine l
  refine ⟨⟨spine l, fun k => firstNot (fun p => compare p.1 k = .lt) l,
    firstNot (fun _ => false) l, ?_, ?_, ?_, ?_⟩, hl⟩
  · intro _ k h
    simpa [hl] using firstNot_eq_none h
  · intro _ k n h
    obtain ⟨hbefore, hafter⟩ := firstNot_eq_some h
    refine ⟨?_, ?_, ?_⟩
    · rw [TreeNode.all, hbefore, hafter, hl, List.takeWhile_append_dropWhile]
    · intro p hp
      rw [hbefore] at hp
      simpa using List.mem_takeWhile_imp hp
    · have hhead := List.head?_dropWhile_not (fun p : κ × α => decide (compare p.1 k = .lt)) l
      simpa [← hafter, TreeNode.pair] using hhead
  · intro h
    simpa [hl, List.eq_nil_iff_forall_not_mem] using firstNot_eq_none h
  · intro n h
    rw [hl]
    cases l <;> simpa using firstNot_eq_some h

end SearchTree

end Lachesis.Core
