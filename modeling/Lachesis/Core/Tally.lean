import Mathlib.Algebra.BigOperators.Group.Finset.Basic
import Std.Data.ExtTreeMap

/-!
# Counters of owned entries

A map holds lists of entries, each with an owner, and beside it stands a map of counters: how many
entries each owner has, with no counter for an owner of none. The lemmas say how the number of
entries changes with the lists, and that the counters can be kept in step.
-/

namespace Lachesis.Core

open Std

variable {κ ι α : Type*} [Ord κ] [TransOrd κ] [LawfulEqOrd κ] [DecidableEq κ]

/-- How many entries of `p` the lists of the map hold. -/
def tally [DecidableEq ι] (owner : α → ι) (m : ExtTreeMap κ (List α)) (p : ι) : ℕ :=
  ∑ k ∈ m.keys.toFinset, (m.getD k []).countP (owner · = p)

section Tally

variable [DecidableEq ι] {owner : α → ι} {m : ExtTreeMap κ (List α)} {k : κ} {p : ι}

omit [LawfulEqOrd κ] in
@[simp] lemma tally_empty : tally owner (∅ : ExtTreeMap κ (List α)) p = 0 := by
  simp [tally]

private lemma sum_erase_getD (owner : α → ι) (p : ι) {m' : ExtTreeMap κ (List α)}
    (h : ∀ j, j ≠ k → m'[j]? = m[j]?) :
    ∑ j ∈ m'.keys.toFinset.erase k, (m'.getD j []).countP (owner · = p) =
      ∑ j ∈ m.keys.toFinset.erase k, (m.getD j []).countP (owner · = p) := by
  apply Finset.sum_congr
  · ext j
    simp only [Finset.mem_erase, List.mem_toFinset, ExtTreeMap.mem_keys,
      ExtTreeMap.mem_iff_isSome_getElem?]
    apply and_congr_right
    intro hj
    rw [h j hj]
  · intro j hj
    rw [ExtTreeMap.getD_eq_getD_getElem?, h j (Finset.ne_of_mem_erase hj),
      ← ExtTreeMap.getD_eq_getD_getElem?]

private lemma tally_eq_add (m : ExtTreeMap κ (List α)) (k : κ) :
    tally owner m p = (m.getD k []).countP (owner · = p) +
      ∑ j ∈ m.keys.toFinset.erase k, (m.getD j []).countP (owner · = p) := by
  by_cases hk : k ∈ m.keys.toFinset
  · exact (Finset.add_sum_erase _ _ hk).symm
  · have hget : m.getD k [] = [] := by
      apply ExtTreeMap.getD_eq_fallback
      simpa using hk
    rw [hget, Finset.erase_eq_of_notMem hk, List.countP_nil, zero_add, tally]

/-- With a key goes what its list counts. -/
lemma tally_erase_add :
    tally owner (m.erase k) p + (m.getD k []).countP (owner · = p) = tally owner m p := by
  have hget : ∀ j, j ≠ k → (m.erase k)[j]? = m[j]? := by
    intro j hj
    simp [ExtTreeMap.getElem?_erase, hj.symm]
  rw [tally_eq_add (m.erase k) k, tally_eq_add m k, sum_erase_getD owner p hget]
  simp [add_comm]

/-- A new element counts for its owner. -/
lemma tally_insert_append (a : α) :
    tally owner (m.insert k (m.getD k [] ++ [a])) p =
      tally owner m p + if owner a = p then 1 else 0 := by
  have hget : ∀ j, j ≠ k → (m.insert k (m.getD k [] ++ [a]))[j]? = m[j]? := by
    intro j hj
    simp [ExtTreeMap.getElem?_insert, hj.symm]
  rw [tally_eq_add (m.insert k (m.getD k [] ++ [a])) k, tally_eq_add m k,
    sum_erase_getD owner p hget]
  simp [List.countP_append, List.countP_cons, add_right_comm]

end Tally

/-! ### The counters -/

section Counts

variable [Ord ι] [TransOrd ι] [LawfulEqOrd ι] [DecidableEq ι]
variable {counts : ExtTreeMap ι ℤ} {n n' : ι → ℕ} {p : ι}

/-- The counters are those of `n`, with none for zero. -/
def Counts (counts : ExtTreeMap ι ℤ) (n : ι → ℕ) : Prop :=
  ∀ p, counts[p]? = if n p = 0 then none else some (n p : ℤ)

/-- One less for `p`, and no counter if nothing is left. -/
def decrement (counts : ExtTreeMap ι ℤ) (p : ι) : ExtTreeMap ι ℤ :=
  let counts := counts.insert p (counts.getD p 0 - 1)
  if counts.getD p 0 ≤ 0 then counts.erase p else counts

omit [LawfulEqOrd ι] [DecidableEq ι] in
lemma Counts.getD (h : Counts counts n) (p : ι) : counts.getD p 0 = n p := by
  rw [ExtTreeMap.getD_eq_getD_getElem?, h p]
  split <;> simp_all

/-- A counter that comes to zero is erased. -/
lemma Counts.decrement (h : Counts counts n) (hp : 0 < n p) :
    Counts (Core.decrement counts p) (Function.update n p (n p - 1)) := by
  intro q
  have hget := h.getD p
  by_cases hq : p = q
  · subst hq
    by_cases hone : n p = 1
    · simp [Core.decrement, hget, hone]
    · have hpos : ¬ (n p : ℤ) - 1 ≤ 0 := by omega
      have hne : n p - 1 ≠ 0 := by omega
      simp [Core.decrement, hget, hpos, hne]
      omega
  · have hother : Function.update n p (n p - 1) q = n q := Function.update_of_ne (Ne.symm hq) _ _
    rw [hother, ← h q, Core.decrement]
    split <;> simp [ExtTreeMap.getElem?_erase, ExtTreeMap.getElem?_insert, hq]

/-- Erasing a list is decrementing for each of its elements. -/
lemma Counts.decrement_all {owner : α → ι} {l : List α} (h : Counts counts n)
    (hn : ∀ p, n' p + l.countP (owner · = p) = n p) :
    Counts (l.foldl (fun counts a => Core.decrement counts (owner a)) counts) n' := by
  induction l generalizing counts n with
  | nil =>
    have heq : n' = n := by
      funext p
      simpa using hn p
    exact heq ▸ h
  | cons a l ih =>
    rw [List.foldl_cons]
    have hpos : 0 < n (owner a) := by
      rw [← hn, List.countP_cons]
      simp only [decide_true, if_true]
      omega
    apply ih (h.decrement hpos)
    intro p
    have hp := hn p
    rw [List.countP_cons] at hp
    by_cases hap : owner a = p
    · subst hap
      simp at hp ⊢
      omega
    · have hne : p ≠ owner a := Ne.symm hap
      simp [hap, hne] at hp ⊢
      exact hp

omit [LawfulEqOrd ι] [DecidableEq ι] in
lemma counts_empty : Counts (∅ : ExtTreeMap ι ℤ) fun _ => 0 := by
  intro p
  simp

lemma Counts.insert {c : ℤ} (h : ∀ q, q ≠ p → counts[q]? = if n q = 0 then none else some (n q : ℤ))
    (hc : c = n p) (hpos : 0 < n p) : Counts (counts.insert p c) n := by
  intro q
  by_cases hq : p = q
  · subst hq
    simp [hc, hpos.ne']
  · rw [← h q (Ne.symm hq)]
    simp [ExtTreeMap.getElem?_insert, hq]

lemma Counts.increment (h : Counts counts n) (p : ι) :
    Counts (counts.insert p (counts.getD p 0 + 1)) (Function.update n p (n p + 1)) := by
  apply Counts.insert
  · intro q hq
    rw [Function.update_of_ne hq]
    exact h q
  · simp [h.getD]
  · rw [Function.update_self]
    exact Nat.succ_pos _

end Counts

end Lachesis.Core
