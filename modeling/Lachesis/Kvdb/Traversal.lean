import Lachesis.Kvdb.Iterator

/-!
# What an iterator returns

An iterator returns the pairs of the store in order, each key once and none that is deleted. What it
has still to return is determined by the nodes and pairs that it is at, and each round of its loops
either returns the first of that or leaves it as it is.
-/

namespace Lachesis

open Lachesis.Core Std

/-! ### Orders -/

/-- A key between a prefix and a key with the prefix has the prefix. -/
lemma isPrefixOf_of_between {pre k k' : Bytes} (h : compare k pre ≠ .lt) (h' : compare k k' ≠ .gt)
    (hpre : pre.isPrefixOf k') : pre.isPrefixOf k := by
  induction pre generalizing k k' with
  | nil => simp
  | cons a pre ih =>
    obtain ⟨t, rfl⟩ := List.isPrefixOf_iff_prefix.mp hpre
    cases k with
    | nil => simp [List.compare_nil_cons] at h
    | cons b k =>
      rw [List.compare_cons_cons] at h
      rw [List.cons_append, List.compare_cons_cons] at h'
      -- the first byte is between equal ones
      have hba : compare b a = .eq := by
        cases hc : compare b a with
        | eq => rfl
        | lt => simp [hc] at h
        | gt => simp [hc] at h'
      obtain rfl : b = a := LawfulEqCmp.eq_of_compare hba
      rw [hba, Ordering.eq_then] at h h'
      simpa using ih h h' ((List.isPrefixOf_iff_prefix).mpr ⟨t, rfl⟩)

lemma isPrefixOf_le {pre k : Bytes} (h : pre.isPrefixOf k) : compare k pre ≠ .lt := by
  induction pre generalizing k with
  | nil => cases k <;> simp [List.compare_cons_nil]
  | cons a pre ih =>
    obtain ⟨t, rfl⟩ := List.isPrefixOf_iff_prefix.mp h
    rw [List.cons_append, List.compare_cons_cons, compare_self, Ordering.eq_then]
    exact ih ((List.isPrefixOf_iff_prefix).mpr ⟨t, rfl⟩)

/-! ### What is still to come -/

namespace Iterator

variable {α : Type}

/-- The nodes of the tree from the one the iterator is at. -/
def pending (it : Iterator α) : List (Bytes × Option α) :=
  if it.treeOk then (it.treeNode.map fun node => node.pair :: node.after).getD [] else []

/-- The pairs of the wrapped store from the one the iterator is at. -/
def parentPending (it : Iterator α) : List (Bytes × α) :=
  if it.parentOk then it.parentIt.current.toList ++ it.parentIt.rest else []

/-- What holds of an iterator between the rounds of its loops. -/
structure Inv (it : Iterator α) : Prop where
  inited : it.inited = true
  node : it.treeOk = true → ∃ node, it.treeNode = some node ∧ SortedPairs node.all
  parent : it.parentOk = true → ∃ pair, it.parentIt.current = some pair
  sorted : SortedPairs it.parentPending
  /-- The tree is never behind. -/
  prev : ∀ k, it.prevKey = some k → ∀ p ∈ it.pending, compare k p.1 = .lt
  parent_under : ∀ pre, it.keyPrefix = some pre → ∀ p ∈ it.parentPending, pre.isPrefixOf p.1
  prefix_le : ∀ pre, it.keyPrefix = some pre → ∀ p ∈ it.pending, compare p.1 pre ≠ .lt

/-- The pair is to be returned: it is in the tree, or it is in the wrapped store and the tree has
nothing for its key. -/
def Due (it : Iterator α) (p : Bytes × α) : Prop :=
  ((p.1, some p.2) ∈ it.pending ∧ ∀ pre, it.keyPrefix = some pre → pre.isPrefixOf p.1) ∨
    (p ∈ it.parentPending ∧ (∀ k, it.prevKey = some k → compare k p.1 = .lt) ∧
      ∀ v, (p.1, v) ∉ it.pending)

/-- The pairs to be returned, in order. -/
structure Remaining (it : Iterator α) (l : List (Bytes × α)) : Prop where
  sorted : SortedPairs l
  mem_iff : ∀ p, p ∈ l ↔ it.Due p

/-- The iterator `it` is at the first pair of the list and has still to return the others. -/
def Yielded (it : Iterator α) (l : List (Bytes × α)) : Prop :=
  ∃ p l', l = p :: l' ∧ it.Inv ∧ it.Remaining l' ∧ it.key = some p.1 ∧ it.val = some p.2

variable {it it' : Iterator α} {l : List (Bytes × α)} {fuel : ℕ}

lemma Remaining.yielded (h : it.Remaining l) {p : Bytes × α} (hp : it.Due p)
    (hmin : ∀ q, it.Due q → compare q.1 p.1 ≠ .lt) (hinv : it'.Inv)
    (hdue : ∀ q, it'.Due q ↔ it.Due q ∧ compare p.1 q.1 = .lt) (hkey : it'.key = some p.1)
    (hval : it'.val = some p.2) : it'.Yielded l := by
  obtain ⟨l', rfl⟩ := h.sorted.exists_cons ((h.mem_iff p).mpr hp)
    fun q hq => hmin q ((h.mem_iff q).mp hq)
  obtain ⟨hgt, hs⟩ := List.pairwise_cons.mp h.sorted
  refine ⟨p, l', rfl, hinv, ⟨hs, fun q => ?_⟩, hkey, hval⟩
  rw [hdue, ← h.mem_iff, List.mem_cons]
  constructor
  · exact fun hq => ⟨Or.inr hq, hgt q hq⟩
  · rintro ⟨rfl | hq, hlt⟩
    · rw [compare_self] at hlt
      cases hlt
    · exact hq

lemma Remaining.of_due (h : it.Remaining l) (hdue : ∀ q, it'.Due q ↔ it.Due q) : it'.Remaining l :=
  ⟨h.sorted, fun p => (h.mem_iff p).trans (hdue p).symm⟩

/-! ### The tree -/

variable {node : TreeNode Bytes (Option α)}

lemma pending_advanceTree (it : Iterator α) (hs : SortedPairs node.all) :
    (it.advanceTree node).pending = node.after := by
  obtain ⟨hnone, hsome⟩ := nextNode_spec hs
  unfold pending advanceTree
  cases h : nextNode node with
  | none => simp [hnone h]
  | some n => simp [(hsome n h).2]

lemma Inv.advanceTree (h : it.Inv) (hs : SortedPairs node.all)
    (hsub : ∀ p ∈ node.after, p ∈ it.pending)
    (hprev : ∀ k, it'.prevKey = some k → ∀ p ∈ node.after, compare k p.1 = .lt)
    (hrest : it' = { it with key := it'.key, val := it'.val, prevKey := it'.prevKey }) :
    (it'.advanceTree node).Inv := by
  obtain ⟨-, hsome⟩ := nextNode_spec hs
  have hpar : (it'.advanceTree node).parentPending = it.parentPending := by rw [hrest]; rfl
  have hpre : (it'.advanceTree node).keyPrefix = it.keyPrefix := by rw [hrest]; rfl
  constructor
  · rw [hrest]
    exact h.inited
  · intro hok
    obtain ⟨n, hn⟩ := Option.isSome_iff_exists.mp hok
    exact ⟨n, hn, by rw [(hsome n hn).1]; exact hs⟩
  · rw [hrest]
    exact h.parent
  · rw [hpar]
    exact h.sorted
  · rw [pending_advanceTree it' hs]
    exact hprev
  · rw [hpre, hpar]
    exact h.parent_under
  · rw [hpre, pending_advanceTree it' hs]
    exact fun pre hp p hmem => h.prefix_le pre hp p (hsub p hmem)

/-- A node of the tree that is next, and what the invariant says about it. -/
structure AtNode (it : Iterator α) (node : TreeNode Bytes (Option α)) : Prop where
  inv : it.Inv
  sorted : SortedPairs node.all
  pending : it.pending = node.pair :: node.after
  after : ∀ p ∈ node.after, compare node.key p.1 = .lt
  parent : ∀ p ∈ it.parentPending, compare p.1 node.key ≠ .lt

lemma Inv.atNode (h : it.Inv) (hok : it.treeOk = true) (hnode : it.treeNode = some node)
    (hfirst : it.treeFirst node = true) : it.AtNode node := by
  obtain ⟨n, hn, hs⟩ := h.node hok
  obtain rfl : n = node := Option.some.inj (hn.symm.trans hnode)
  refine ⟨h, hs, by simp [pending, hok, hnode], fun p hp => ?_, fun p hp => ?_⟩
  · exact (List.pairwise_cons.mp (List.pairwise_append.mp hs).2.1).1 p hp
  · have hpar : it.parentOk = true := by
      by_contra hpar
      simp [parentPending, hpar] at hp
    obtain ⟨pair, hpair⟩ := h.parent hpar
    have hle : compare n.key pair.1 ≠ .gt := by simpa [treeFirst, hpar, hpair] using hfirst
    have hs' := h.sorted
    rw [parentPending, if_pos hpar, hpair] at hp hs'
    rcases List.mem_cons.mp hp with rfl | hp
    · exact fun hlt => hle (OrientedCmp.gt_of_lt hlt)
    · have hlt := (List.pairwise_cons.mp hs').1 p hp
      exact fun h => hle (OrientedCmp.gt_of_lt (TransCmp.lt_trans hlt h))

/-- The tree is ahead of the wrapped store, so its node hides a pair with the same key only. -/
lemma AtNode.parent_lt_iff (h : it.AtNode node) {q : Bytes × α} (hq : q ∈ it.parentPending) :
    (compare node.key q.1 = .lt ∧ ∀ v, (q.1, v) ∉ node.after) ↔
      (∀ k, it.prevKey = some k → compare k q.1 = .lt) ∧ ∀ v, (q.1, v) ∉ it.pending := by
  rw [h.pending]
  constructor
  · rintro ⟨hlt, hnot⟩
    refine ⟨fun k hk => ?_, fun v hv => ?_⟩
    · exact TransCmp.lt_trans (h.inv.prev k hk node.pair (by simp [h.pending])) hlt
    · rcases List.mem_cons.mp hv with heq | hv
      · have hkey : q.1 = node.key := (Prod.mk.inj heq).1
        rw [hkey, compare_self] at hlt
        cases hlt
      · exact hnot v hv
  · rintro ⟨-, hnot⟩
    refine ⟨?_, fun v hv => hnot v (List.mem_cons_of_mem _ hv)⟩
    cases hcmp : compare node.key q.1 with
    | lt => rfl
    | gt => exact absurd (OrientedCmp.lt_of_gt hcmp) (h.parent q hq)
    | eq =>
      have heq : node.key = q.1 := LawfulEqCmp.eq_of_compare hcmp
      exact absurd (by simp [TreeNode.pair, heq]) (hnot node.val)

section

variable (h : it.AtNode node) (hl : it.Remaining l)
include h hl

lemma AtNode.deleted (hval : node.val = none) :
    ({ it with prevKey := some node.key }.advanceTree node).Inv ∧
      ({ it with prevKey := some node.key }.advanceTree node).Remaining l := by
  refine ⟨h.inv.advanceTree h.sorted (fun p hp => by simp [h.pending, hp])
    (fun k hk p hp => by obtain rfl := Option.some.inj hk; exact h.after p hp) rfl,
    hl.of_due fun q => ?_⟩
  simp only [Due]
  rw [pending_advanceTree _ h.sorted]
  refine or_congr (and_congr_left' ?_) ⟨?_, ?_⟩
  · rw [h.pending, List.mem_cons, TreeNode.pair, hval]
    simp
  · rintro ⟨hq, hlt, hnot⟩
    exact ⟨hq, (h.parent_lt_iff hq).mp ⟨hlt node.key rfl, hnot⟩⟩
  · rintro ⟨hq, hprev⟩
    obtain ⟨hlt, hnot⟩ := (h.parent_lt_iff hq).mpr hprev
    exact ⟨hq, fun k hk => by obtain rfl := Option.some.inj hk; exact hlt, hnot⟩

lemma AtNode.yielded {val : α} (hval : node.val = some val)
    (hpre : ∀ pre, it.keyPrefix = some pre → pre.isPrefixOf node.key) :
    ((it.yield node.key val).advanceTree node).Yielded l := by
  have hmem : ∀ q : Bytes × α, (q.1, some q.2) ∈ it.pending ↔
      q = (node.key, val) ∨ (q.1, some q.2) ∈ node.after := by
    intro q
    rw [h.pending, List.mem_cons, TreeNode.pair, hval]
    simp [Prod.ext_iff]
  refine hl.yielded (p := (node.key, val)) (Or.inl ⟨(hmem _).mpr (Or.inl rfl), hpre⟩) ?_
    (h.inv.advanceTree h.sorted (fun p hp => by simp [h.pending, hp])
      (fun k hk p hp => by obtain rfl := Option.some.inj hk; exact h.after p hp) rfl) ?_ rfl rfl
  · -- nothing before the node is due
    rintro q (⟨hq, -⟩ | ⟨hq, -⟩)
    · rcases (hmem q).mp hq with rfl | hq
      · simp
      · rw [OrientedCmp.gt_of_lt (h.after _ hq)]
        simp
    · exact h.parent q hq
  · intro q
    simp only [Due]
    rw [pending_advanceTree _ h.sorted, hmem]
    constructor
    · rintro (⟨hq, hp⟩ | ⟨hq, hlt, hnot⟩)
      · exact ⟨Or.inl ⟨Or.inr hq, hp⟩, h.after _ hq⟩
      · exact ⟨Or.inr ⟨hq, (h.parent_lt_iff hq).mp ⟨hlt node.key rfl, hnot⟩⟩, hlt node.key rfl⟩
    · rintro ⟨⟨rfl | hq, hp⟩ | ⟨hq, hprev⟩, hlt⟩
      · rw [compare_self] at hlt
        cases hlt
      · exact Or.inl ⟨hq, hp⟩
      · exact Or.inr ⟨hq, fun k hk => by obtain rfl := Option.some.inj hk; exact hlt,
          ((h.parent_lt_iff hq).mpr hprev).2⟩

/-- Past the prefix, the tree has nothing to return and hides nothing. -/
lemma AtNode.past {pre : Bytes} (hpre : it.keyPrefix = some pre) (hnot : ¬pre.isPrefixOf node.key) :
    { it with treeOk := false }.Inv ∧ { it with treeOk := false }.Remaining l := by
  have hpend : { it with treeOk := false }.pending = [] := by simp [Iterator.pending]
  have hout : ∀ p ∈ it.pending, ¬pre.isPrefixOf p.1 := by
    intro p hp hpp
    refine hnot (isPrefixOf_of_between ?_ ?_ hpp)
    · exact h.inv.prefix_le pre hpre node.pair (by simp [h.pending])
    · rw [h.pending] at hp
      rcases List.mem_cons.mp hp with rfl | hp
      · simp [TreeNode.pair]
      · simp [h.after p hp]
  refine ⟨⟨h.inv.inited, by simp, h.inv.parent, h.inv.sorted, by simp [hpend],
    h.inv.parent_under, by simp [hpend]⟩, hl.of_due fun q => ?_⟩
  simp only [Due]
  rw [hpend]
  constructor
  · rintro (⟨hq, -⟩ | ⟨hq, hprev, -⟩)
    · simp at hq
    · exact Or.inr ⟨hq, hprev, fun v hv => hout _ hv (h.inv.parent_under pre hpre q hq)⟩
  · rintro (⟨hq, hp⟩ | ⟨hq, hprev, -⟩)
    · exact absurd (hp pre hpre) (hout _ hq)
    · exact Or.inr ⟨hq, hprev, by simp⟩

/-- A round of the inner loop either returns the first pair that is due or leaves what is due, with
fewer nodes to come. -/
lemma AtNode.treeStep :
    (it.treeStep node).2.parentOk = it.parentOk ∧ (it.treeStep node).2.parentIt = it.parentIt ∧
      if (it.treeStep node).1 then (it.treeStep node).2.Yielded l
      else (it.treeStep node).2.Inv ∧ (it.treeStep node).2.Remaining l ∧
        (it.treeStep node).2.pending.length < it.pending.length := by
  unfold Iterator.treeStep
  cases hval : node.val with
  | none =>
    obtain ⟨hinv, hrem⟩ := h.deleted hl hval
    refine ⟨rfl, rfl, ?_⟩
    simp only [Bool.false_eq_true, if_false]
    refine ⟨hinv, hrem, ?_⟩
    rw [pending_advanceTree _ h.sorted, h.pending]
    simp
  | some val =>
    cases hany : it.keyPrefix.any fun pre => !pre.isPrefixOf node.key with
    | true =>
      obtain ⟨pre, hpre, hnot⟩ := (Option.any_eq_true _ _).mp hany
      obtain ⟨hinv, hrem⟩ := h.past hl hpre fun hp => by rw [hp] at hnot; cases hnot
      rw [isSuitable, if_pos hany]
      refine ⟨rfl, rfl, ?_⟩
      simp only [Bool.false_eq_true, if_false]
      refine ⟨hinv, hrem, ?_⟩
      rw [h.pending]
      simp [Iterator.pending]
    | false =>
      have hprev : (it.prevKey.all fun k => compare node.key k = .gt) = true := by
        rw [Option.all_eq_true]
        intro k hk
        exact decide_eq_true (OrientedCmp.gt_of_lt (h.inv.prev k hk node.pair (by simp [h.pending])))
      rw [isSuitable, hany, if_neg (by simp), hprev]
      refine ⟨rfl, rfl, ?_⟩
      simp only [if_true]
      refine h.yielded hl hval fun pre hpre => ?_
      simpa [hpre] using hany

end

/-- The inner loop returns the first pair that is due, or it stops before the pair of the wrapped
store. -/
lemma treeLoop_spec (h : it.Inv) (hl : it.Remaining l) (hfuel : it.pending.length < fuel) :
    ∃ r it', treeLoop fuel it = some (r, it') ∧
      if r then it'.Yielded l
      else it'.Inv ∧ it'.Remaining l ∧ it'.parentPending = it.parentPending ∧
        (it'.parentOk = false → it'.treeOk = false) ∧
        ∀ pair, it'.parentOk = true → it'.parentIt.current = some pair →
          ∀ p ∈ it'.pending, compare pair.1 p.1 = .lt := by
  induction fuel generalizing it with
  | zero => omega
  | succ fuel ih =>
    rw [treeLoop]
    cases hok : it.treeOk with
    | false =>
      exact ⟨false, it, rfl, by simpa [hok, pending] using ⟨h, hl⟩⟩
    | true =>
      obtain ⟨node, hnode, hs⟩ := h.node hok
      rw [hnode]
      cases hfirst : it.treeFirst node with
      | true =>
        have hat := h.atNode hok hnode hfirst
        obtain ⟨hpok, hpit, hstep⟩ := hat.treeStep hl
        obtain ⟨r, it', hr⟩ : ∃ r it', it.treeStep node = (r, it') := ⟨_, _, rfl⟩
        rw [hr] at hpok hpit hstep
        dsimp only at hpok hpit hstep ⊢
        rw [if_pos hfirst, hr]
        cases r with
        | true => exact ⟨true, it', rfl, hstep⟩
        | false =>
          simp only [Bool.false_eq_true, if_false] at hstep
          obtain ⟨hinv, hrem, hlen⟩ := hstep
          have hpp : it'.parentPending = it.parentPending := by
            rw [parentPending, parentPending, hpok, hpit]
          obtain ⟨r, it'', hr', hspec⟩ := ih hinv hrem (by omega)
          rw [hpp] at hspec
          exact ⟨r, it'', hr', hspec⟩
      | false =>
        refine ⟨false, it, if_neg (by simp [hfirst]), ?_⟩
        obtain ⟨hpok, pair, hpair, hgt⟩ : it.parentOk = true ∧ ∃ pair, it.parentIt.current =
            some pair ∧ compare node.key pair.1 = .gt := by
          obtain ⟨hpok, hall⟩ := Bool.or_eq_false_iff.mp hfirst
          have hpok : it.parentOk = true := by simpa using hpok
          obtain ⟨pair, hpair⟩ := h.parent hpok
          exact ⟨hpok, pair, hpair, by simpa [hpair] using hall⟩
        simp only [Bool.false_eq_true, if_false]
        refine ⟨h, hl, trivial, by simp [hpok], fun pair' _ hpair' p hp => ?_⟩
        obtain rfl : pair = pair' := Option.some.inj (hpair.symm.trans hpair')
        have hlt := OrientedCmp.lt_of_gt hgt
        rw [pending, if_pos hok, hnode] at hp
        rcases List.mem_cons.mp hp with rfl | hp
        · exact hlt
        · exact TransCmp.lt_trans hlt
            ((List.pairwise_cons.mp (List.pairwise_append.mp hs).2.1).1 p hp)

/-! ### The wrapped store -/

/-- A pair of the wrapped store that is next: the tree is past it. -/
structure AtPair (it : Iterator α) (pair : Bytes × α) : Prop where
  inv : it.Inv
  ok : it.parentOk = true
  current : it.parentIt.current = some pair
  tree : ∀ p ∈ it.pending, compare pair.1 p.1 = .lt

lemma parentPending_advanceParent (it : Iterator α) :
    it.advanceParent.parentPending = it.parentIt.rest := by
  unfold advanceParent parentPending ParentIterator.next
  cases it.parentIt.rest <;> rfl

namespace AtPair

variable {it : Iterator α} {pair : Bytes × α} (h : it.AtPair pair)

include h

lemma parentPending : it.parentPending = pair :: it.parentIt.rest := by
  simp [Iterator.parentPending, h.ok, h.current]

lemma rest_lt : ∀ p ∈ it.parentIt.rest, compare pair.1 p.1 = .lt := by
  have hs := h.inv.sorted
  rw [h.parentPending] at hs
  exact (List.pairwise_cons.mp hs).1

lemma advanceParent (hprev : ∀ k, it'.prevKey = some k → ∀ p ∈ it.pending, compare k p.1 = .lt)
    (hrest : it' = { it with key := it'.key, val := it'.val, prevKey := it'.prevKey }) :
    it'.advanceParent.Inv := by
  have hsub : ∀ p ∈ it.parentIt.rest, p ∈ it.parentPending := by
    intro p hp
    rw [h.parentPending]
    exact List.mem_cons_of_mem _ hp
  have hs := h.inv.sorted
  have hpend : it'.advanceParent.pending = it.pending := by rw [hrest]; rfl
  have hpre : it'.advanceParent.keyPrefix = it.keyPrefix := by rw [hrest]; rfl
  have hrst : it'.parentIt.rest = it.parentIt.rest := by rw [hrest]
  rw [h.parentPending] at hs
  constructor
  · rw [hrest]
    exact h.inv.inited
  · rw [hrest]
    exact h.inv.node
  · intro hok
    simp only [Iterator.advanceParent, ParentIterator.next] at hok ⊢
    cases hr : it'.parentIt.rest with
    | nil => simp [hr] at hok
    | cons p ps => exact ⟨p, rfl⟩
  · rw [parentPending_advanceParent, hrst]
    exact (List.pairwise_cons.mp hs).2
  · rw [hpend]
    exact hprev
  · rw [parentPending_advanceParent, hpre, hrst]
    exact fun pre hp p hmem => h.inv.parent_under pre hp p (hsub p hmem)
  · rw [hpre, hpend]
    exact h.inv.prefix_le

lemma skipped (hl : it.Remaining l) {k : Bytes} (hk : it.prevKey = some k)
    (hle : compare pair.1 k ≠ .gt) : it.advanceParent.Inv ∧ it.advanceParent.Remaining l := by
  refine ⟨h.advanceParent h.inv.prev rfl, hl.of_due fun q => ?_⟩
  simp only [Due]
  rw [parentPending_advanceParent, h.parentPending]
  refine or_congr Iff.rfl ⟨?_, ?_⟩
  · rintro ⟨hq, hprev⟩
    exact ⟨List.mem_cons_of_mem _ hq, hprev⟩
  · rintro ⟨hq, hprev, hnot⟩
    rcases List.mem_cons.mp hq with rfl | hq
    · exact absurd (OrientedCmp.gt_of_lt (hprev k hk)) hle
    · exact ⟨hq, hprev, hnot⟩

lemma yielded (hl : it.Remaining l) (hprev : ∀ k, it.prevKey = some k → compare k pair.1 = .lt) :
    (it.yield pair.1 pair.2).advanceParent.Yielded l := by
  have hnot : ∀ v, (pair.1, v) ∉ it.pending := by
    intro v hv
    have hlt := h.tree _ hv
    rw [compare_self] at hlt
    cases hlt
  refine hl.yielded (p := pair) (Or.inr ⟨by simp [h.parentPending], hprev, hnot⟩) ?_
    (h.advanceParent (fun k hk p hp => by obtain rfl := Option.some.inj hk; exact h.tree p hp) rfl)
    ?_ rfl rfl
  · -- nothing before the pair is due
    rintro q (⟨hq, -⟩ | ⟨hq, -⟩)
    · rw [OrientedCmp.gt_of_lt (h.tree _ hq)]
      simp
    · rw [h.parentPending] at hq
      rcases List.mem_cons.mp hq with rfl | hq
      · simp
      · rw [OrientedCmp.gt_of_lt (h.rest_lt q hq)]
        simp
  · intro q
    simp only [Due]
    rw [parentPending_advanceParent, h.parentPending]
    constructor
    · rintro (⟨hq, hp⟩ | ⟨hq, hlt, hnot⟩)
      · exact ⟨Or.inl ⟨hq, hp⟩, h.tree _ hq⟩
      · have hlt : compare pair.1 q.1 = .lt := hlt pair.1 rfl
        refine ⟨Or.inr ⟨List.mem_cons_of_mem _ hq, fun k hk => ?_, hnot⟩, hlt⟩
        exact TransCmp.lt_trans (hprev k hk) hlt
    · rintro ⟨⟨hq, hp⟩ | ⟨hq, -, hnot⟩, hlt⟩
      · exact Or.inl ⟨hq, hp⟩
      · rcases List.mem_cons.mp hq with rfl | hq
        · rw [compare_self] at hlt
          cases hlt
        · exact Or.inr ⟨hq, fun k hk => by obtain rfl := Option.some.inj hk; exact hlt, hnot⟩

/-- The wrapped store is moved on by one pair. -/
lemma parentStep (hl : it.Remaining l) :
    if it.parentStep.1 then it.parentStep.2.Yielded l
    else it.parentStep.2.Inv ∧ it.parentStep.2.Remaining l ∧
      it.parentStep.2.parentPending = it.parentIt.rest := by
  have hany : (it.keyPrefix.any fun pre => !pre.isPrefixOf pair.1) = false := by
    rw [Option.any_eq_false]
    intro pre hpre
    have hp := h.inv.parent_under pre hpre pair (by simp [h.parentPending])
    simp [hp]
  unfold Iterator.parentStep
  rw [h.ok, h.current]
  cases hprev : it.prevKey.all fun k => compare pair.1 k = .gt with
  | true =>
    simp only [isSuitable, hany, Bool.false_eq_true, if_false, hprev, if_true]
    refine h.yielded hl fun k hk => OrientedCmp.lt_of_gt ?_
    simpa [hk] using hprev
  | false =>
    simp only [isSuitable, hany, Bool.false_eq_true, if_false, hprev]
    obtain ⟨k, hk, hle⟩ : ∃ k, it.prevKey = some k ∧ compare pair.1 k ≠ .gt := by
      cases hk : it.prevKey with
      | none => simp [hk] at hprev
      | some k => exact ⟨k, rfl, by simpa [hk] using hprev⟩
    obtain ⟨hinv, hrem⟩ := h.skipped hl hk hle
    exact ⟨hinv, hrem, parentPending_advanceParent it⟩

end AtPair

/-! ### Whole runs -/

lemma length_pending_le (it : Iterator α) : it.pending.length ≤ it.nodesLeft := by
  unfold pending nodesLeft
  cases it.treeNode <;> split_ifs <;> simp

lemma Remaining.eq_nil (hl : it.Remaining l) (htree : it.treeOk = false)
    (hparent : it.parentOk = false) : l = [] := by
  refine List.eq_nil_iff_forall_not_mem.mpr fun p hp => ?_
  have hdue := (hl.mem_iff p).mp hp
  simp [Due, pending, parentPending, htree, hparent] at hdue

/-- `Next` returns the next pair, or there is none. -/
lemma nextLoop_spec {fuel : ℕ} {it : Iterator α} {l : List (Bytes × α)} (h : it.Inv)
    (hl : it.Remaining l) (hfuel : it.parentPending.length + 1 < fuel) :
    ∃ r it', nextLoop fuel it = some (r, it') ∧ if r then it'.Yielded l else l = [] := by
  induction fuel generalizing it with
  | zero => omega
  | succ fuel ih =>
    rw [nextLoop]
    cases hok : it.treeOk || it.parentOk with
    | false =>
      obtain ⟨htree, hparent⟩ := Bool.or_eq_false_iff.mp hok
      exact ⟨false, it, if_neg (by simp), by simpa using hl.eq_nil htree hparent⟩
    | true =>
      obtain ⟨r, it₁, hr, hspec⟩ := treeLoop_spec h hl (Nat.lt_succ_of_le it.length_pending_le)
      rw [if_pos (by simp), hr]
      cases r with
      | true => exact ⟨true, it₁, rfl, hspec⟩
      | false =>
        simp only [Bool.false_eq_true, if_false] at hspec
        obtain ⟨hinv, hrem, hpp, htree, hat⟩ := hspec
        cases hpok : it₁.parentOk with
        | false =>
          -- both sides are done, and the loop ends in its next round
          have hstep : it₁.parentStep = (false, it₁) := by simp [parentStep, hpok]
          have hdone : nextLoop fuel it₁ = some (false, it₁) := by
            obtain ⟨fuel, rfl⟩ : ∃ n, fuel = n + 1 := ⟨fuel - 1, by omega⟩
            simp [nextLoop, htree hpok, hpok]
          refine ⟨false, it₁, ?_, by simpa using hrem.eq_nil (htree hpok) hpok⟩
          simp only [hstep, hdone]
        | true =>
          obtain ⟨pair, hpair⟩ := hinv.parent hpok
          have hpair' : it₁.AtPair pair := ⟨hinv, hpok, hpair, hat pair hpok hpair⟩
          have hstep := hpair'.parentStep hrem
          obtain ⟨r, it₂, hr₂⟩ : ∃ r it', it₁.parentStep = (r, it') := ⟨_, _, rfl⟩
          rw [hr₂] at hstep
          simp only [hr₂]
          cases r with
          | true => exact ⟨true, it₂, rfl, by simpa using hstep⟩
          | false =>
            simp only [Bool.false_eq_true, if_false] at hstep
            obtain ⟨hinv₂, hrem₂, hpp₂⟩ := hstep
            refine ih hinv₂ hrem₂ ?_
            rw [← hpp, hpair'.parentPending] at hfuel
            rw [hpp₂]
            simpa using hfuel

/-- `Next` goes to the first pair that is due. -/
lemma next_spec (h : it.init.Inv) (hl : it.init.Remaining l) :
    ∃ r it', it.next = some (r, it') ∧ if r then it'.Yielded l else l = [] := by
  refine nextLoop_spec h hl ?_
  have hle : it.init.parentPending.length ≤ it.init.parentIt.rest.length + 1 := by
    unfold parentPending
    cases it.init.parentIt.current <;> split_ifs <;> simp
  omega

/-- The iterator returns what is due, in order, and then nothing. -/
theorem drain_eq (h : it.init.Inv) (hl : it.init.Remaining l) (hfuel : l.length < fuel) :
    drain fuel it = some l := by
  induction fuel generalizing it l with
  | zero => omega
  | succ fuel ih =>
    obtain ⟨r, it', hr, hspec⟩ := next_spec h hl
    rw [drain, hr]
    cases r with
    | false => simpa using (by simpa using hspec : l = []).symm
    | true =>
      obtain ⟨p, l', rfl, hinv, hrem, hkey, hval⟩ := (by simpa using hspec : it'.Yielded l)
      have hinit : it'.init = it' := by simp [init, hinv.inited]
      simp only [hkey, hval]
      rw [ih (by rwa [hinit]) (by rwa [hinit]) (by simpa using hfuel)]
      rfl

end Iterator

/-! ### The first round -/

namespace Flushable

variable {α : Type} {tree : WriteTree α} {start keyPrefix : Option Bytes}
  {pairs : List (Bytes × α)}

lemma parentPending_init : (iterator tree start keyPrefix pairs).init.parentPending = pairs := by
  cases pairs <;> rfl

lemma all_firstNode (hs : SortedPairs tree.toList) {n : TreeNode Bytes (Option α)}
    (h : (iterator tree start keyPrefix pairs).firstNode = some n) : n.all = tree.toList := by
  cases start with
  | none =>
    obtain ⟨hb, ha⟩ := tree.left_eq_some n h
    rw [TreeNode.all, hb, ha, List.nil_append]
  | some k => exact (tree.ceiling_eq_some hs k n h).all

lemma pending_init (hs : SortedPairs tree.toList) (p : Bytes × Option α) :
    p ∈ (iterator tree start keyPrefix pairs).init.pending ↔
      p ∈ tree.toList ∧ ∀ k, start = some k → compare p.1 k ≠ .lt := by
  cases start with
  | none =>
    cases hn : tree.left with
    | none =>
      have hempty := tree.left_eq_none hn
      simp [Iterator.pending, Iterator.init, Iterator.firstNode, iterator, hn, hempty]
    | some n =>
      obtain ⟨-, ha⟩ := tree.left_eq_some n hn
      simp [Iterator.pending, Iterator.init, Iterator.firstNode, iterator, hn, ← ha]
  | some k =>
    cases hn : tree.ceiling k with
    | none =>
      have hlt := tree.ceiling_eq_none hs k hn
      simp only [Iterator.pending, Iterator.init, Iterator.firstNode, iterator, hn]
      simpa using hlt p
    | some n =>
      obtain ⟨hall, hbefore, hkey⟩ := tree.ceiling_eq_some hs k n hn
      rw [LookupTree.toList, ← hall] at hs ⊢
      obtain ⟨-, hs', -⟩ := List.pairwise_append.mp hs
      have hge : ∀ p ∈ n.pair :: n.after, compare p.1 k ≠ .lt := by
        intro p hp
        rcases List.mem_cons.mp hp with rfl | hp
        · exact hkey
        · exact fun h => hkey (TransCmp.lt_trans ((List.pairwise_cons.mp hs').1 p hp) h)
      have hpend : (iterator tree (some k) keyPrefix pairs).init.pending = n.pair :: n.after := by
        simp [Iterator.pending, Iterator.init, Iterator.firstNode, iterator, hn]
      rw [hpend, TreeNode.all, List.mem_append]
      constructor
      · exact fun hp => ⟨Or.inr hp, fun k' hk => by obtain rfl := Option.some.inj hk; exact hge p hp⟩
      · rintro ⟨hp | hp, hle⟩
        · exact absurd (hbefore p hp) (hle k rfl)
        · exact hp

/-- The iterator returns the pairs of the tree in its range, and those of the wrapped store that the
tree has nothing for. -/
theorem drain_iterator (hs : SortedPairs tree.toList) (hpairs : SortedPairs pairs)
    (hpre : ∀ pre, keyPrefix = some pre → start = some pre ∧ ∀ p ∈ pairs, pre.isPrefixOf p.1)
    (hl : SortedPairs l)
    (hmem : ∀ p, p ∈ l ↔
      ((p.1, some p.2) ∈ tree.toList ∧ (∀ k, start = some k → compare p.1 k ≠ .lt) ∧
        ∀ pre, keyPrefix = some pre → pre.isPrefixOf p.1) ∨
      (p ∈ pairs ∧ ∀ v, (p.1, v) ∈ tree.toList → ∃ k, start = some k ∧ compare p.1 k = .lt))
    (hfuel : l.length < fuel) : (iterator tree start keyPrefix pairs).drain fuel = some l := by
  refine Iterator.drain_eq ⟨rfl, fun hok => ?_, fun hok => ?_, ?_, ?_, ?_, ?_⟩ ⟨hl, fun p => ?_⟩
    hfuel
  · obtain ⟨n, hn⟩ := Option.isSome_iff_exists.mp hok
    exact ⟨n, hn, by rw [all_firstNode hs hn]; exact hs⟩
  · cases pairs with
    | nil => cases hok
    | cons p ps => exact ⟨p, rfl⟩
  · rw [parentPending_init]
    exact hpairs
  · intro k hk
    cases hk
  · rw [parentPending_init]
    exact fun pre h => (hpre pre h).2
  · intro pre h p hp
    exact ((pending_init hs p).mp hp).2 pre (hpre pre h).1
  · rw [hmem, Iterator.Due, parentPending_init, pending_init hs, and_assoc]
    refine or_congr Iff.rfl (and_congr Iff.rfl ⟨fun h => ⟨?_, fun v hv => ?_⟩, ?_⟩)
    · intro k hk
      cases hk
    · obtain ⟨hmem, hle⟩ := (pending_init hs _).mp hv
      obtain ⟨k, hk, hlt⟩ := h v hmem
      exact hle k hk hlt
    · rintro ⟨-, h⟩ v hv
      by_contra hno
      push Not at hno
      exact h v ((pending_init hs _).mpr ⟨hv, hno⟩)

end Flushable

end Lachesis
