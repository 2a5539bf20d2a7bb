import Lachesis.Core.SearchTree
import Lachesis.Kvdb.Flushable

/-!
# Iterating over a flushable store

The iterator goes through the tree of the unflushed writes and through an iterator of the wrapped
store at once, and skips what the tree overwrites or deletes. The writes are a map in the model of
the store; here the tree may be any search tree that holds them, with any lookups that find the
right nodes.
-/

namespace Lachesis

open Lachesis.Core Std

/-- Keys of a store. -/
abbrev Bytes := List UInt8

section NextNode

variable {κ α : Type} [Ord κ]

/-- The loop of `nextNode` up the parents of a subtree, to one whose key is not less than that of
the origin. -/
def climb (origin : κ) : SearchTree κ α → List (ParentLink κ α) → Option (TreeNode κ α)
  | _, [] => none
  | t, .left key val right :: links =>
    if compare origin key ≠ .gt then some ⟨t, key, val, right, links⟩
    else climb origin (.node t key val right) links
  | t, .right left key val :: links =>
    if compare origin key ≠ .gt then some ⟨left, key, val, t, links⟩
    else climb origin (.node left key val t) links

def nextNode (node : TreeNode κ α) : Option (TreeNode κ α) :=
  match SearchTree.leftmost node.right (.right node.left node.key node.val :: node.parents) with
  | some next => some next
  | none => climb node.key (.node node.left node.key node.val node.right) node.parents

variable [TransOrd κ]

/-- Going up stops at the next greater node. -/
lemma climb_spec {origin : κ} {t : SearchTree κ α} {links : List (ParentLink κ α)}
    (hbefore : ∀ p ∈ SearchTree.linksBefore links, compare p.1 origin = .lt)
    (hafter : ∀ p ∈ SearchTree.linksAfter links, compare origin p.1 = .lt) :
    (climb origin t links = none → SearchTree.linksAfter links = []) ∧
      ∀ n, climb origin t links = some n → n.before = SearchTree.linksBefore links ++ t.toList ∧
        n.pair :: n.after = SearchTree.linksAfter links := by
  induction links generalizing t with
  | nil => simp [climb, SearchTree.linksAfter]
  | cons link links ih =>
    cases link with
    | left key val right =>
      -- a parent to the right
      have hlt : compare origin key = .lt := hafter (key, val) (by simp [SearchTree.linksAfter])
      rw [climb, if_pos (by simp [hlt])]
      refine ⟨by simp, fun n h => ?_⟩
      obtain rfl := Option.some.inj h
      exact ⟨rfl, by simp [TreeNode.pair, TreeNode.after, SearchTree.linksAfter]⟩
    | right left key val =>
      -- a parent to the left
      have hgt : compare origin key = .gt := OrientedCmp.gt_of_lt
        (hbefore (key, val) (by simp [SearchTree.linksBefore]))
      rw [climb, if_neg (by simp [hgt])]
      obtain ⟨h₁, h₂⟩ := ih (t := .node left key val t)
        (fun p hp => hbefore p (by simp [SearchTree.linksBefore, hp])) hafter
      refine ⟨h₁, fun n h => ?_⟩
      obtain ⟨hb, ha⟩ := h₂ n h
      exact ⟨by rw [hb]; simp [SearchTree.linksBefore, SearchTree.toList], ha⟩

/-- `nextNode` goes through the pairs of the tree in order. -/
theorem nextNode_spec {node : TreeNode κ α} (hs : SortedPairs node.all) :
    (nextNode node = none → node.after = []) ∧
      ∀ n, nextNode node = some n → n.all = node.all ∧ node.after = n.pair :: n.after := by
  obtain ⟨-, hs', hlt⟩ := List.pairwise_append.mp hs
  obtain ⟨hgt, -⟩ := List.pairwise_cons.mp hs'
  obtain ⟨left, key, val, right, links⟩ := node
  unfold nextNode
  cases hl : SearchTree.leftmost right (.right left key val :: links) with
  | some n =>
    obtain ⟨hb, ha⟩ := SearchTree.leftmost_eq_some hl
    refine ⟨by simp, fun m hm => ?_⟩
    obtain rfl := Option.some.inj hm
    refine ⟨?_, ?_⟩
    · rw [TreeNode.all, hb, ha]
      simp [TreeNode.all, TreeNode.before, TreeNode.after, TreeNode.pair, SearchTree.linksBefore,
        SearchTree.linksAfter]
    · rw [ha]
      simp [TreeNode.after, SearchTree.linksAfter]
  | none =>
    obtain rfl := SearchTree.leftmost_eq_none hl
    obtain ⟨h₁, h₂⟩ := @climb_spec κ α _ _ key (.node left key val .leaf) links
      (fun p hp => hlt p (by simp [TreeNode.before, hp]) (key, val) (by simp [TreeNode.pair]))
      (fun p hp => hgt p (by simp [TreeNode.after, hp]))
    refine ⟨fun h => by simpa [TreeNode.after, SearchTree.toList] using h₁ h, fun n h => ?_⟩
    obtain ⟨hb, ha⟩ := h₂ n h
    refine ⟨?_, by rw [ha]; simp [TreeNode.after, SearchTree.toList]⟩
    rw [TreeNode.all, hb, ha]
    simp [TreeNode.all, TreeNode.before, TreeNode.after, TreeNode.pair, SearchTree.toList]

end NextNode

/-! ### The iterator -/

/-- An iterator of the wrapped store: the pair it is at, and those to come. -/
structure ParentIterator (α : Type) where
  current : Option (Bytes × α)
  rest : List (Bytes × α)

/-- `Iterator.Next` of the wrapped store. -/
def ParentIterator.next {α : Type} (p : ParentIterator α) : Bool × ParentIterator α :=
  match p.rest with
  | [] => (false, ⟨none, []⟩)
  | pair :: rest => (true, ⟨some pair, rest⟩)

/-- The tree of the writes, a `redblacktree.Tree`. -/
abbrev WriteTree (α : Type) := LookupTree Bytes (Option α)

/-- `flushable.iterator` -/
structure Iterator (α : Type) where
  tree : WriteTree α
  key : Option Bytes
  val : Option α
  prevKey : Option Bytes
  parentIt : ParentIterator α
  parentOk : Bool
  treeNode : Option (TreeNode Bytes (Option α))
  treeOk : Bool
  start : Option Bytes
  keyPrefix : Option Bytes
  inited : Bool

namespace Iterator

variable {α : Type}

/-- The closure `isSuitable` of `Next`: whether to return the key, and whether to go on. -/
def isSuitable (it : Iterator α) (key : Bytes) : Bool × Bool :=
  if it.keyPrefix.any fun pre => !pre.isPrefixOf key then (false, false)
  else (it.prevKey.all fun prevKey => compare key prevKey = .gt, true)

/-- The node of the tree at which the iterator starts. -/
def firstNode (it : Iterator α) : Option (TreeNode Bytes (Option α)) :=
  match it.start with
  | some start => it.tree.ceiling start
  | none => it.tree.left

/-- The first call of `Next` initialises the iterator. -/
def init (it : Iterator α) : Iterator α :=
  if it.inited then it
  else
    { it with
      inited := true
      parentOk := it.parentIt.next.1
      parentIt := it.parentIt.next.2
      treeNode := it.firstNode
      treeOk := it.firstNode.isSome }

/-- The iterator moved to the next node of the tree. -/
def advanceTree (it : Iterator α) (node : TreeNode Bytes (Option α)) : Iterator α :=
  { it with treeNode := nextNode node, treeOk := (nextNode node).isSome }

/-- The iterator at a pair that it returns. -/
def yield (it : Iterator α) (key : Bytes) (val : α) : Iterator α :=
  { it with key := some key, val := some val, prevKey := some key }

/-- The body of the inner loop of `Next`: whether a pair of the tree is returned. -/
def treeStep (it : Iterator α) (node : TreeNode Bytes (Option α)) : Bool × Iterator α :=
  match node.val with
  | none => (false, { it with prevKey := some node.key }.advanceTree node)
  | some val =>
    match it.isSuitable node.key with
    | (_, false) => (false, { it with treeOk := false })
    | (true, true) => (true, (it.yield node.key val).advanceTree node)
    | (false, true) => (false, it.advanceTree node)

/-- Whether the inner loop goes on: the node is not behind the pair of the wrapped store. -/
def treeFirst (it : Iterator α) (node : TreeNode Bytes (Option α)) : Bool :=
  !it.parentOk || it.parentIt.current.all fun pair => compare node.key pair.1 ≠ .gt

/-- The inner loop of `Next`, for at most `fuel` nodes. -/
def treeLoop : (fuel : ℕ) → Iterator α → Option (Bool × Iterator α)
  | 0, _ => none
  | fuel + 1, it =>
    match it.treeOk, it.treeNode with
    | true, some node =>
      if it.treeFirst node then
        match it.treeStep node with
        | (true, it) => some (true, it)
        | (false, it) => treeLoop fuel it
      else some (false, it)
    | _, _ => some (false, it)

/-- The iterator moved to the next pair of the wrapped store. -/
def advanceParent (it : Iterator α) : Iterator α :=
  { it with parentOk := it.parentIt.next.1, parentIt := it.parentIt.next.2 }

/-- The part of the outer loop of `Next` for the wrapped store: whether its pair is returned. -/
def parentStep (it : Iterator α) : Bool × Iterator α :=
  match it.parentOk, it.parentIt.current with
  | true, some pair =>
    match it.isSuitable pair.1 with
    | (_, false) => (false, { it with parentOk := false })
    | (true, true) => (true, (it.yield pair.1 pair.2).advanceParent)
    | (false, true) => (false, it.advanceParent)
  | _, _ => (false, it)

/-- The nodes of the tree that are left. -/
def nodesLeft (it : Iterator α) : ℕ := (it.treeNode.map fun node => node.after.length + 1).getD 0

/-- The outer loop of `Next`, for at most `fuel` rounds. -/
def nextLoop : (fuel : ℕ) → Iterator α → Option (Bool × Iterator α)
  | 0, _ => none
  | fuel + 1, it =>
    if it.treeOk || it.parentOk then
      match treeLoop (it.nodesLeft + 1) it with
      | none => none
      | some (true, it) => some (true, it)
      | some (false, it) =>
        match it.parentStep with
        | (true, it) => some (true, it)
        | (false, it) => nextLoop fuel it
    else some (false, it)

/-- `iterator.Next`; every round but the last takes a pair of the wrapped store. -/
def next (it : Iterator α) : Option (Bool × Iterator α) :=
  nextLoop (it.init.parentIt.rest.length + 3) it.init

/-- The pairs that `Next` gives until it returns false, for at most `fuel` calls. -/
def drain : (fuel : ℕ) → Iterator α → Option (List (Bytes × α))
  | 0, _ => none
  | fuel + 1, it =>
    match it.next with
    | none => none
    | some (false, _) => some []
    | some (true, it) =>
      match it.key, it.val with
      | some key, some val => (drain fuel it).map ((key, val) :: ·)
      | _, _ => none

end Iterator

namespace Flushable

variable {α : Type}

/-- An iterator over the tree of the writes and some pairs of the wrapped store. -/
def iterator (tree : WriteTree α) (start keyPrefix : Option Bytes)
    (pairs : List (Bytes × α)) : Iterator α where
  tree := tree
  key := none
  val := none
  prevKey := none
  parentIt := ⟨none, pairs⟩
  parentOk := false
  treeNode := none
  treeOk := false
  start := start
  keyPrefix := keyPrefix
  inited := false

def newIterator (w : Flushable Bytes α) (tree : WriteTree α) : Iterator α :=
  iterator tree none none w.underlying.toList

def newIteratorWithStart (w : Flushable Bytes α) (tree : WriteTree α)
    (start : Option Bytes) : Iterator α :=
  iterator tree start none
    (w.underlying.toList.filter fun pair => start.all fun start => compare pair.1 start ≠ .lt)

def newIteratorWithPrefix (w : Flushable Bytes α) (tree : WriteTree α)
    (keyPrefix : Option Bytes) : Iterator α :=
  iterator tree keyPrefix keyPrefix
    (w.underlying.toList.filter fun pair => keyPrefix.all fun pre => pre.isPrefixOf pair.1)

end Flushable

end Lachesis
