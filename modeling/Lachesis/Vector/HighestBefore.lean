import Lachesis.Vector.Branches
import Mathlib.Data.List.TakeWhile

/-!
# What the clocks of an event say

`Before` states what the clocks of an event are worth: for every branch whose creator the event
does not see forking, the greatest and the least number of the events it sees there and the
claimed time of the greatest; for a creator it sees forking, the mark on all branches known at the
time. The clocks that `fillEventVectors` computes for a new event are worth that, whatever the
order of its parents.
-/

namespace Lachesis

open Lachesis.Core

/-! ### Records -/

/-- A record for the events of `A`: nothing, or its greatest and least number and the time of the
greatest. -/
def Summary (G : EventDag) (time : EventID → Timestamp) (A : Set EventID)
    (s : BranchSeq) (t : Timestamp) : Prop :=
  (A = ∅ ∧ s = ⟨0, 0⟩) ∨
    ∃ top ∈ A, ∃ low ∈ A, s = ⟨G.seq top, G.seq low⟩ ∧ t = time top ∧
      ∀ y ∈ A, G.seq low ≤ G.seq y ∧ G.seq y ≤ G.seq top

namespace Summary

variable {G : EventDag} {time : EventID → Timestamp} {A B : Set EventID}
variable {s s' : BranchSeq} {t t' : Timestamp}

variable (h : Summary G time A s t)
include h

lemma not_isForkDetected (hpos : ∀ y ∈ A, 0 < G.seq y) : s.isForkDetected = false := by
  rcases h with ⟨-, rfl⟩ | ⟨top, htop, low, -, rfl, -⟩
  · decide
  · have := hpos top htop
    simp only [BranchSeq.isForkDetected, decide_eq_false_iff_not, forkDetectedSeq,
      BranchSeq.mk.injEq, not_and]
    omega

lemma seq_eq_zero_iff (hpos : ∀ y ∈ A, 0 < G.seq y) : s.seq = 0 ↔ A = ∅ := by
  rcases h with ⟨hA, rfl⟩ | ⟨top, htop, low, -, rfl, -⟩
  · simp [hA]
  · refine ⟨fun h => absurd h (hpos top htop).ne', fun h => ?_⟩
    rw [h] at htop
    exact absurd htop (Set.notMem_empty _)

lemma le_seq {y : EventID} (hy : y ∈ A) : s.minSeq ≤ G.seq y ∧ G.seq y ≤ s.seq := by
  rcases h with ⟨rfl, -⟩ | ⟨top, -, low, -, rfl, -, hb⟩
  · exact absurd hy (Set.notMem_empty _)
  · exact hb y hy

lemma exists_top (hne : s.seq ≠ 0) : ∃ top ∈ A, G.seq top = s.seq ∧ time top = t := by
  rcases h with ⟨-, rfl⟩ | ⟨top, htop, low, -, rfl, rfl, -⟩
  · exact absurd rfl hne
  · exact ⟨top, htop, rfl, rfl⟩

lemma exists_low (hne : s.seq ≠ 0) : ∃ low ∈ A, G.seq low = s.minSeq := by
  rcases h with ⟨-, rfl⟩ | ⟨top, -, low, hlow, rfl, -⟩
  · exact absurd rfl hne
  · exact ⟨low, hlow, rfl⟩

/-- Summaries are joined as `fillEventVectors` joins two entries. -/
lemma union (h' : Summary G time B s' t') (hpos : ∀ y ∈ A ∪ B, 0 < G.seq y) (hB : B.Nonempty) :
    Summary G time (A ∪ B)
      ⟨if s.seq < s'.seq then s'.seq else s.seq,
        if s.seq = 0 ∨ s'.minSeq < s.minSeq then s'.minSeq else s.minSeq⟩
      (if s.seq < s'.seq then t' else t) := by
  rcases h' with ⟨rfl, -⟩ | ⟨top', htop', low', hlow', rfl, rfl, hb'⟩
  · exact absurd hB Set.not_nonempty_empty
  have hpos' := hpos top' (Or.inr htop')
  rcases h with ⟨rfl, rfl⟩ | ⟨top, htop, low, hlow, rfl, rfl, hb⟩
  · refine Or.inr ⟨top', Or.inr htop', low', Or.inr hlow', ?_, ?_, ?_⟩
    · simp only [hpos', true_or, if_true]
    · simp only [hpos', if_true]
    · rintro y (hy | hy)
      · exact absurd hy (Set.notMem_empty _)
      · exact hb' y hy
  · have hne : G.seq top ≠ 0 := (hpos top (Or.inl htop)).ne'
    refine Or.inr ⟨if G.seq top < G.seq top' then top' else top, ?_,
      if G.seq low' < G.seq low then low' else low, ?_, ?_, ?_, ?_⟩
    · split_ifs
      · exact Or.inr htop'
      · exact Or.inl htop
    · split_ifs
      · exact Or.inr hlow'
      · exact Or.inl hlow
    · simp only [hne, false_or, apply_ite G.seq]
    · simp only [apply_ite time]
    · rintro y (hy | hy)
      · have := hb y hy
        constructor <;> split_ifs <;> omega
      · have := hb' y hy
        constructor <;> split_ifs <;> omega

end Summary

/-! ### One branch of one parent -/

namespace BranchesInfo

lemma get_foldl_set (l : List ℕ) (before : HighestBeforeSeq) (b : ℕ) :
    (l.foldl (·.set · forkDetectedSeq) before).get b
      = if b ∈ l then forkDetectedSeq else before.get b := by
  induction l generalizing before with
  | nil => simp
  | cons x l ih =>
    rw [List.foldl_cons, ih, HighestBeforeSeq.get_set _ _ _ fits_forkDetectedSeq]
    by_cases hl : b ∈ l <;> by_cases hx : b = x <;> simp [hl, hx]

lemma size_foldl_set {l : List ℕ} {before : HighestBeforeSeq} (h : ∀ b ∈ l, b < before.size) :
    (l.foldl (·.set · forkDetectedSeq) before).size = before.size := by
  induction l generalizing before with
  | nil => rfl
  | cons x l ih =>
    have hsize : (before.set x forkDetectedSeq).size = before.size := by
      have := h x (by simp)
      rw [HighestBeforeSeq.size_set]
      omega
    rw [List.foldl_cons, ih fun b hb => by rw [hsize]; exact h b (by simp [hb]), hsize]

end BranchesInfo

section

variable {V : Validators} {G : EventDag} {S : Set EventID} {br : EventID → ℕ}
variable {bi : BranchesInfo} {time : EventID → Timestamp}

lemma BranchInv.setForkDetected (h : BranchInv V G S br bi) (hfork : V.len < bi.count)
    {before : HighestBeforeSeq} (hsize : before.size = bi.count) {b : ℕ} (hb : b < bi.count) :
    ∃ marked, bi.setForkDetected V before b = .ok marked ∧ marked.size = bi.count ∧
      ∀ b' < bi.count, marked.get b'
        = if bi.creatorOf b' = bi.creatorOf b then forkDetectedSeq else before.get b' := by
  have hall : (bi.branchesOf (bi.creatorOf b)).takeWhile (· < before.size)
      = bi.branchesOf (bi.creatorOf b) := by
    rw [List.takeWhile_eq_self_iff]
    intro x hx
    simpa [hsize] using (BranchesInfo.mem_branchesOf.mp hx).1
  refine ⟨(bi.branchesOf (bi.creatorOf b)).foldl (·.set · forkDetectedSeq) before, ?_, ?_, ?_⟩
  · have hf : bi.atLeastOneFork V = true := decide_eq_true hfork
    simp only [BranchesInfo.setForkDetected, BranchesInfo.creatorIdxs_getElem? hb,
      h.byCreators _ (h.creatorOf_lt b hb), hf, hall, if_true]
  · rw [BranchesInfo.size_foldl_set fun x hx => ?_, hsize]
    rw [hsize]
    exact (BranchesInfo.mem_branchesOf.mp hx).1
  · intro b' hb'
    rw [BranchesInfo.get_foldl_set]
    simp only [BranchesInfo.mem_branchesOf, hb', true_and]

end

namespace BeforeVecs

variable (my : BeforeVecs) (b : ℕ) (his : BranchSeq) (time : Timestamp)

lemma seq_takeBounds (hfits : his.Fits) (b' : ℕ) :
    (my.takeBounds b his time).seq.get b' = if b' = b then
      ⟨if (my.seq.get b).seq < his.seq then his.seq else (my.seq.get b).seq,
        if (my.seq.get b).seq = 0 ∨ his.minSeq < (my.seq.get b).minSeq then his.minSeq
        else (my.seq.get b).minSeq⟩
      else my.seq.get b' := by
  have hmy := my.seq.fits_get b
  have f₁ : BranchSeq.Fits ⟨his.seq, his.minSeq⟩ := hfits
  have f₂ : BranchSeq.Fits ⟨(my.seq.get b).seq, his.minSeq⟩ := ⟨hmy.1, hfits.2⟩
  have f₃ : BranchSeq.Fits ⟨his.seq, (my.seq.get b).minSeq⟩ := ⟨hfits.1, hmy.2⟩
  unfold takeBounds
  by_cases hmin : (my.seq.get b).seq = 0 ∨ his.minSeq < (my.seq.get b).minSeq <;>
  by_cases hmax : (my.seq.get b).seq < his.seq <;>
  by_cases hb : b' = b <;>
  simp only [hmin, hmax, hb, if_true, if_false, HighestBeforeSeq.get_set _ _ _ f₁,
    HighestBeforeSeq.get_set _ _ _ f₂, HighestBeforeSeq.get_set _ _ _ f₃]

lemma time_takeBounds (b' : ℕ) :
    (my.takeBounds b his time).time.get b'
      = if b' = b then if (my.seq.get b).seq < his.seq then time else my.time.get b
        else my.time.get b' := by
  unfold takeBounds
  by_cases hmax : (my.seq.get b).seq < his.seq <;> by_cases hb : b' = b <;>
    simp [hmax, hb, HighestBeforeTime.get_set]

lemma size_takeBounds (hb : b < my.seq.size) :
    (my.takeBounds b his time).seq.size = my.seq.size := by
  simp only [takeBounds]
  split_ifs <;> simp only [HighestBeforeSeq.size_set] <;> omega

end BeforeVecs

/-! ### One parent -/

/-- The clocks of the event `x`. -/
structure Before (V : Validators) (G : EventDag) (time : EventID → Timestamp)
    (br : EventID → ℕ) (bi : BranchesInfo) (x : EventID) (v : BeforeVecs) : Prop where
  le_size : V.len ≤ v.seq.size
  size_le : v.seq.size ≤ bi.count
  fork : ∀ b < v.seq.size, G.SeesFork x (bi.owner V b) → v.seq.get b = forkDetectedSeq
  summary : ∀ b, (b < v.seq.size → ¬ G.SeesFork x (bi.owner V b)) →
    Summary G time {y | G.Sees x y ∧ br y = b} (v.seq.get b) (v.time.get b)

/-- The clocks of a new event on the way: `A` is what has been gone through and `F` the creators
seen forking by a parent that has. -/
structure Merged (V : Validators) (G : EventDag) (time : EventID → Timestamp)
    (br : EventID → ℕ) (bi : BranchesInfo) (F : Set StakerID) (A : Set EventID)
    (my : BeforeVecs) : Prop where
  size_eq : my.seq.size = bi.count
  fork : ∀ b < bi.count, bi.owner V b ∈ F → my.seq.get b = forkDetectedSeq
  summary : ∀ b < bi.count, bi.owner V b ∉ F →
    Summary G time {y | y ∈ A ∧ br y = b} (my.seq.get b) (my.time.get b)

section

variable {V : Validators} {G : EventDag} {S : Set EventID} {br : EventID → ℕ}
variable {bi : BranchesInfo} {time : EventID → Timestamp} {F : Set StakerID} {A : Set EventID}
variable {p : EventID} {his : BeforeVecs}

lemma Before.isForkDetected_iff {x : EventID} {v : BeforeVecs} (h : Before V G time br bi x v)
    (hS : G.Valid S) (hx : x ∈ S) {b : ℕ} (hb : b < v.seq.size) :
    (v.seq.get b).isForkDetected = true ↔ G.SeesFork x (bi.owner V b) := by
  constructor
  · intro hdet
    by_contra hnot
    have hpos : ∀ y ∈ {y | G.Sees x y ∧ br y = b}, 0 < G.seq y :=
      fun y hy => hS.seq_pos y (hS.sees_mem hx hy.1)
    rw [(h.summary b fun _ => hnot).not_isForkDetected hpos] at hdet
    cases hdet
  · intro hf
    rw [h.fork b hb hf, isForkDetected_forkDetectedSeq]

/-- The clocks of a new event in the middle of one parent: the branches below `k` are done. A fork
the parent sees is spread to all branches of its creator at the first of them. -/
structure Merging (V : Validators) (G : EventDag) (time : EventID → Timestamp)
    (br : EventID → ℕ) (bi : BranchesInfo) (F : Set StakerID) (A : Set EventID) (p : EventID)
    (k : ℕ) (my : BeforeVecs) : Prop where
  size_eq : my.seq.size = bi.count
  fork : ∀ b < bi.count, bi.owner V b ∈ F ∨ (G.SeesFork p (bi.owner V b) ∧ bi.creatorOf b < k) →
    my.seq.get b = forkDetectedSeq
  todo : ∀ b < bi.count, bi.owner V b ∉ F → (G.SeesFork p (bi.owner V b) → k ≤ bi.creatorOf b) →
    (¬ G.SeesFork p (bi.owner V b) → k ≤ b) →
    Summary G time {y | y ∈ A ∧ br y = b} (my.seq.get b) (my.time.get b)
  done : ∀ b < bi.count, b < k → bi.owner V b ∉ F → ¬ G.SeesFork p (bi.owner V b) →
    Summary G time {y | (y ∈ A ∨ G.Sees p y) ∧ br y = b} (my.seq.get b) (my.time.get b)

namespace Merging

variable {k : ℕ} {my : BeforeVecs}

lemma start (h : Merged V G time br bi F A my) : Merging V G time br bi F A p 0 my where
  size_eq := h.size_eq
  fork b hb hf := by
    rcases hf with hf | ⟨-, hf⟩
    · exact h.fork b hb hf
    · omega
  todo b hb hf _ _ := h.summary b hb hf
  done _ _ hk := by omega

lemma finish (hbi : BranchInv V G S br bi) (h : Merging V G time br bi F A p bi.count my) :
    Merged V G time br bi (F ∪ {v | G.SeesFork p v}) (A ∪ {y | G.Sees p y}) my where
  size_eq := h.size_eq
  fork b hb hf := by
    have := hbi.creatorOf_le hb
    exact h.fork b hb (hf.imp_right fun hf => ⟨hf, by omega⟩)
  summary b hb hf := by
    simp only [Set.mem_union, not_or] at hf
    exact h.done b hb hb hf.1 hf.2

variable (h : Merging V G time br bi F A p k my)
include h

lemma skip
    (hfork : ∀ b < bi.count, bi.creatorOf b = k → G.SeesFork p (bi.owner V b) → bi.owner V b ∈ F)
    (hsum : k < bi.count → bi.owner V k ∉ F → ¬ G.SeesFork p (bi.owner V k) →
      Summary G time {y | (y ∈ A ∨ G.Sees p y) ∧ br y = k} (my.seq.get k) (my.time.get k)) :
    Merging V G time br bi F A p (k + 1) my where
  size_eq := h.size_eq
  fork b hb hf := by
    rcases hf with hf | ⟨hf, hlt⟩
    · exact h.fork b hb (Or.inl hf)
    · rcases Nat.lt_succ_iff_lt_or_eq.mp hlt with hlt | heq
      · exact h.fork b hb (Or.inr ⟨hf, hlt⟩)
      · exact h.fork b hb (Or.inl (hfork b hb heq hf))
  todo b hb hf h₁ h₂ := h.todo b hb hf (fun hs => (Nat.le_succ k).trans (h₁ hs))
    fun hs => (Nat.le_succ k).trans (h₂ hs)
  done b hb hk hf hs := by
    rcases Nat.lt_succ_iff_lt_or_eq.mp hk with hlt | rfl
    · exact h.done b hb hlt hf hs
    · exact hsum hb hf hs

lemma mark (hbi : BranchInv V G S br bi) (hS : G.Valid S) (hpS : p ∈ S) (hk : k < bi.count)
    (hkk : bi.creatorOf k = k)
    (hs : G.SeesFork p (bi.owner V k)) :
    ∃ seq, bi.setForkDetected V my.seq k = .ok seq ∧
      Merging V G time br bi F A p (k + 1) { my with seq } := by
  have hcount : V.len < bi.count := by
    obtain ⟨x, y, hx, hy, -, hxy⟩ := hs
    refine lt_of_le_of_ne hbi.len_le fun heq => ?_
    exact hbi.not_fork_of_count heq.symm (hS.sees_mem hpS hx) (hS.sees_mem hpS hy) hxy
  obtain ⟨seq, hseq, hsize, hget⟩ := hbi.setForkDetected hcount h.size_eq hk
  rw [hkk] at hget
  have howner : ∀ b < bi.count, bi.creatorOf b = k → bi.owner V b = bi.owner V k := fun b hb hbk =>
    by rw [← hbi.owner_creatorOf hb, hbk]
  refine ⟨seq, hseq, hsize, fun b hb hf => ?_, fun b hb hf h₁ h₂ => ?_, fun b hb hlt hf hns => ?_⟩
  · rw [hget b hb]
    split_ifs with hbk
    · rfl
    · exact h.fork b hb (hf.imp_right fun hf => ⟨hf.1, by omega⟩)
  · have hbk : bi.creatorOf b ≠ k := fun hbk => by
      have := h₁ (howner b hb hbk ▸ hs)
      omega
    rw [hget b hb, if_neg hbk]
    exact h.todo b hb hf (fun hs => (Nat.le_succ k).trans (h₁ hs))
      fun hs => (Nat.le_succ k).trans (h₂ hs)
  · have hbk : bi.creatorOf b ≠ k := fun hbk => hns (howner b hb hbk ▸ hs)
    have hne : b ≠ k := fun heq => hbk (heq ▸ hkk)
    rw [hget b hb, if_neg hbk]
    exact h.done b hb (by omega) hf hns

lemma take (hbi : BranchInv V G S br bi)
    (hk : k < bi.count) (hs : ¬ G.SeesFork p (bi.owner V k)) (hkF : bi.owner V k ∉ F)
    {s : BranchSeq} {t : Timestamp} (hfits : s.Fits)
    (hsum : Summary G time {y | (y ∈ A ∨ G.Sees p y) ∧ br y = k}
      ⟨if (my.seq.get k).seq < s.seq then s.seq else (my.seq.get k).seq,
        if (my.seq.get k).seq = 0 ∨ s.minSeq < (my.seq.get k).minSeq then s.minSeq
        else (my.seq.get k).minSeq⟩
      (if (my.seq.get k).seq < s.seq then t else my.time.get k)) :
    Merging V G time br bi F A p (k + 1) (my.takeBounds k s t) where
  size_eq := by
    rw [BeforeVecs.size_takeBounds _ _ _ _ (by rw [h.size_eq]; exact hk), h.size_eq]
  fork b hb hf := by
    have hbk : b ≠ k := by
      rintro rfl
      exact hf.elim hkF fun hf => hs hf.1
    rw [BeforeVecs.seq_takeBounds _ _ _ _ hfits, if_neg hbk]
    refine h.fork b hb (hf.imp_right fun hf => ⟨hf.1, ?_⟩)
    -- the creator of the branch is not the one of `k`, which the parent does not see forking
    have hne : bi.creatorOf b ≠ k := fun heq => hs (by
      rw [← heq, hbi.owner_creatorOf hb]
      exact hf.1)
    omega
  todo b hb hf h₁ h₂ := by
    have hbk : b ≠ k := by
      rintro rfl
      have := h₂ hs
      omega
    rw [BeforeVecs.seq_takeBounds _ _ _ _ hfits, BeforeVecs.time_takeBounds, if_neg hbk,
      if_neg hbk]
    exact h.todo b hb hf (fun hs => (Nat.le_succ k).trans (h₁ hs))
      fun hs => (Nat.le_succ k).trans (h₂ hs)
  done b hb hlt hf hns := by
    rw [BeforeVecs.seq_takeBounds _ _ _ _ hfits, BeforeVecs.time_takeBounds]
    by_cases hbk : b = k
    · subst hbk
      rw [if_pos rfl, if_pos rfl]
      exact hsum
    · rw [if_neg hbk, if_neg hbk]
      exact h.done b hb (by omega) hf hns

/-- One branch of a parent is observed. -/
lemma step (hbi : BranchInv V G S br bi) (hS : G.Valid S) (hA : A ⊆ S) (hpS : p ∈ S)
    (hp : Before V G time br bi p his)
    (hk : k < bi.count) :
    ∃ my', BeforeVecs.observeBranch bi V his my k = .ok my' ∧
      Merging V G time br bi F A p (k + 1) my' := by
  have howner : ∀ b < bi.count, bi.creatorOf b = k → bi.owner V b = bi.owner V k := fun b hb hbk =>
    by rw [← hbi.owner_creatorOf hb, hbk]
  have hmyFork : ∀ hF : my.seq.get k = forkDetectedSeq,
      BeforeVecs.observeBranch bi V his my k = .ok my := by
    intro hF
    unfold BeforeVecs.observeBranch
    have : (my.seq.get k).isForkDetected = true := decide_eq_true hF
    simp only [this, if_true, ite_self]
  by_cases hkF : bi.owner V k ∈ F
  · exact ⟨my, hmyFork (h.fork k hk (Or.inl hkF)),
      h.skip (fun b hb hbk _ => howner b hb hbk ▸ hkF) fun _ hf _ => absurd hkF hf⟩
  by_cases hs : G.SeesFork p (bi.owner V k)
  · rcases (hbi.creatorOf_le hk).lt_or_eq with hlt | hkk
    · -- marked at the creator's first branch
      refine ⟨my, hmyFork (h.fork k hk (Or.inr ⟨hs, hlt⟩)),
        h.skip (fun b hb hbk _ => ?_) fun _ _ hns => absurd hs hns⟩
      have := hbi.creatorOf_first k (hbk ▸ hbi.creatorOf_lt b hb)
      omega
    · obtain ⟨seq, hseq, hm⟩ := h.mark hbi hS hpS hk hkk hs
      have hklen : k < V.len := hkk ▸ hbi.creatorOf_lt k hk
      have hhis : his.seq.get k = forkDetectedSeq := hp.fork k (hklen.trans_le hp.le_size) hs
      have hmy : (my.seq.get k).isForkDetected = false :=
        (h.todo k hk hkF (fun _ => hkk.ge) fun _ => le_rfl).not_isForkDetected
          fun y hy => hS.seq_pos y (hA hy.1)
      refine ⟨_, ?_, hm⟩
      simp [BeforeVecs.observeBranch, hhis, hmy, hseq, isForkDetected_forkDetectedSeq, Except.map]
  · have hhis := hp.summary k fun _ => hs
    have hmy := h.todo k hk hkF (fun hs' => absurd hs' hs) fun _ => le_rfl
    have hposB : ∀ y ∈ {y | G.Sees p y ∧ br y = k}, 0 < G.seq y :=
      fun y hy => hS.seq_pos y (hS.sees_mem hpS hy.1)
    have hhisF := hhis.not_isForkDetected hposB
    have hunion : {y | (y ∈ A ∨ G.Sees p y) ∧ br y = k}
        = {y | y ∈ A ∧ br y = k} ∪ {y | G.Sees p y ∧ br y = k} := by
      ext y
      simp only [Set.mem_ofPred_eq, Set.mem_union, or_and_right]
    by_cases hB : (his.seq.get k).seq = 0
    · refine ⟨my, by simp [BeforeVecs.observeBranch, hB, hhisF], h.skip (fun b hb hbk hsb => ?_)
        fun _ _ _ => ?_⟩
      · exact absurd (howner b hb hbk ▸ hsb) hs
      · rw [hunion, (hhis.seq_eq_zero_iff hposB).mp hB, Set.union_empty]
        exact hmy
    · have hmyF : (my.seq.get k).isForkDetected = false :=
        hmy.not_isForkDetected fun y hy => hS.seq_pos y (hA hy.1)
      refine ⟨my.takeBounds k (his.seq.get k) (his.time.get k), ?_,
        h.take hbi hk hs hkF (his.seq.fits_get k) ?_⟩
      · simp [BeforeVecs.observeBranch, hB, hmyF, hhisF]
      · rw [hunion]
        refine hmy.union hhis ?_ ?_
        · rintro y (hy | hy)
          · exact hS.seq_pos y (hA hy.1)
          · exact hposB y hy
        · rw [Set.nonempty_iff_ne_empty]
          exact fun he => hB ((hhis.seq_eq_zero_iff hposB).mpr he)

end Merging

section

variable (hbi : BranchInv V G S br bi) (hS : G.Valid S)
include hbi hS

lemma Merged.observeParent (hA : A ⊆ S) (hpS : p ∈ S) (hp : Before V G time br bi p his) {my : BeforeVecs}
    (h : Merged V G time br bi F A my) :
    ∃ my', BeforeVecs.observeParent bi V my his = .ok my' ∧
      Merged V G time br bi (F ∪ {v | G.SeesFork p v}) (A ∪ {y | G.Sees p y}) my' := by
  obtain ⟨my', hmy', h'⟩ := foldlM_range_ok (Merging V G time br bi F A p) (Merging.start h)
    fun k hk my hm => hm.step hbi hS hA hpS hp hk
  exact ⟨my', hmy', h'.finish hbi⟩

/-- The vectors of the parents are merged. -/
lemma Merged.observeParents {ps : List EventID} {vecs : EventID → BeforeVecs} (hps : ∀ p ∈ ps, p ∈ S ∧ Before V G time br bi p (vecs p))
    (hA : A ⊆ S) {my : BeforeVecs} (h : Merged V G time br bi F A my) :
    ∃ my', (ps.map vecs).foldlM (BeforeVecs.observeParent bi V) my = .ok my' ∧
      Merged V G time br bi (F ∪ {v | ∃ p ∈ ps, G.SeesFork p v})
        (A ∪ {y | ∃ p ∈ ps, G.Sees p y}) my' := by
  induction ps generalizing F A my with
  | nil => exact ⟨my, rfl, by simpa using h⟩
  | cons p ps ih =>
    obtain ⟨hpS, hp⟩ := hps p (by simp)
    obtain ⟨my₁, hmy₁, h₁⟩ := h.observeParent hbi hS hA hpS hp
    have hA₁ : A ∪ {y | G.Sees p y} ⊆ S :=
      Set.union_subset hA fun y hy => hS.sees_mem hpS hy
    obtain ⟨my₂, hmy₂, h₂⟩ := ih (fun q hq => hps q (by simp [hq])) hA₁ h₁
    refine ⟨my₂, by rw [List.map_cons, List.foldlM_cons, hmy₁]; exact hmy₂, ?_⟩
    have hF : F ∪ {v | ∃ q ∈ p :: ps, G.SeesFork q v}
        = F ∪ {v | G.SeesFork p v} ∪ {v | ∃ q ∈ ps, G.SeesFork q v} := by
      ext v
      simp [or_assoc]
    have hA' : A ∪ {y | ∃ q ∈ p :: ps, G.Sees q y}
        = A ∪ {y | G.Sees p y} ∪ {y | ∃ q ∈ ps, G.Sees q y} := by
      ext y
      simp [or_assoc]
    rw [hF, hA']
    exact h₂

/-! ### Forks that no parent saw -/

variable {id : EventID} {my : BeforeVecs} (hid : id ∈ S)
  (hm : Merged V G time br bi F {y | G.Sees id y} my)
include hid hm

/-- Of a creator no parent saw forking, two branches overlap exactly when the event sees a fork:
the observed part of a branch has every number between its bounds. -/
lemma Merged.overlaps_iff {k : ℕ} (hk : k < V.len) (hkF : bi.owner V k ∉ F) :
    (∃ b₁ ∈ bi.branchesOf k, ∃ b₂ ∈ bi.branchesOf k, b₁ ≠ b₂ ∧
      (my.seq.get b₁).overlaps (my.seq.get b₂) = true) ↔ G.SeesFork id (bi.owner V k) := by
  have howner : ∀ b ∈ bi.branchesOf k, b < bi.count ∧ bi.owner V b = bi.owner V k := by
    intro b hb
    obtain ⟨hlt, hbk⟩ := BranchesInfo.mem_branchesOf.mp hb
    exact ⟨hlt, by rw [← hbi.owner_creatorOf hlt, hbk]⟩
  have hsum : ∀ b ∈ bi.branchesOf k, Summary G time {y | G.Sees id y ∧ br y = b} (my.seq.get b)
      (my.time.get b) := fun b hb =>
    hm.summary b (howner b hb).1 ((howner b hb).2 ▸ hkF)
  constructor
  · rintro ⟨b₁, hb₁, b₂, hb₂, hne, hov⟩
    simp only [BranchSeq.overlaps, ne_eq, Bool.and_eq_true, decide_eq_true_eq] at hov
    obtain ⟨⟨⟨h₁, h₂⟩, h₁₂⟩, h₂₁⟩ := hov
    -- the number that both branches have is the greater of the two least ones
    let n := max (my.seq.get b₁).minSeq (my.seq.get b₂).minSeq
    have hfind : ∀ b ∈ bi.branchesOf k, (my.seq.get b).seq ≠ 0 → (my.seq.get b).minSeq ≤ n →
        n ≤ (my.seq.get b).seq → ∃ z, G.Sees id z ∧ br z = b ∧ G.seq z = n := by
      intro b hb hne hlo hhi
      obtain ⟨top, htop, htops, -⟩ := (hsum b hb).exists_top hne
      obtain ⟨low, hlow, hlows⟩ := (hsum b hb).exists_low hne
      have htS := hS.sees_mem hid htop.1
      obtain ⟨z, hz, hzb, hzs⟩ := hbi.exists_on_branch hS (hS.sees_mem hid hlow.1) htS
        (hlow.2.trans htop.2.symm) (k := n) (by omega) (by omega)
      exact ⟨z, htop.1.trans (hS.selfSees_sees htS hz), hzb.trans htop.2, hzs⟩
    have hmin₁ : (my.seq.get b₁).minSeq ≤ (my.seq.get b₁).seq := by
      obtain ⟨top, htop, htops, -⟩ := (hsum b₁ hb₁).exists_top h₁
      have := (hsum b₁ hb₁).le_seq htop
      omega
    have hmin₂ : (my.seq.get b₂).minSeq ≤ (my.seq.get b₂).seq := by
      obtain ⟨top, htop, htops, -⟩ := (hsum b₂ hb₂).exists_top h₂
      have := (hsum b₂ hb₂).le_seq htop
      omega
    obtain ⟨x, hx, hxb, hxs⟩ := hfind b₁ hb₁ h₁ (le_max_left _ _) (max_le hmin₁ h₂₁)
    obtain ⟨y, hy, hyb, hys⟩ := hfind b₂ hb₂ h₂ (le_max_right _ _) (max_le h₁₂ hmin₂)
    have hcx : G.creator x = bi.owner V k := by
      rw [← hbi.owner_br x (hS.sees_mem hid hx), hxb, (howner b₁ hb₁).2]
    have hcy : G.creator y = bi.owner V k := by
      rw [← hbi.owner_br y (hS.sees_mem hid hy), hyb, (howner b₂ hb₂).2]
    refine ⟨x, y, hx, hy, hcx, fun hxy => hne ?_, hcx.trans hcy.symm, hxs.trans hys.symm⟩
    rw [← hxb, ← hyb, hxy]
  · rintro ⟨x, y, hx, hy, hc, hne, hcc, hs⟩
    have hxS := hS.sees_mem hid hx
    have hyS := hS.sees_mem hid hy
    have hmem : ∀ z ∈ S, G.creator z = bi.owner V k → br z ∈ bi.branchesOf k := by
      intro z hz hzc
      rw [BranchesInfo.mem_branchesOf, hbi.creatorOf_br hz, hzc,
        hbi.getIdx_owner (hk.trans_le hbi.len_le), hbi.creatorOf_first k hk]
      exact ⟨hbi.br_lt z hz, rfl⟩
    have hbx := hmem x hxS hc
    have hby := hmem y hyS (hcc.symm.trans hc)
    refine ⟨br x, hbx, br y, hby, fun hbr => hne (hbi.eq_of_seq x hxS y hyS hbr hs), ?_⟩
    have hlx := (hsum _ hbx).le_seq ⟨hx, rfl⟩
    have hly := (hsum _ hby).le_seq ⟨hy, rfl⟩
    have hpos := hS.seq_pos x hxS
    simp only [BranchSeq.overlaps, ne_eq, Bool.and_eq_true, decide_eq_true_eq]
    omega

/-- The clock in the middle of the search for forks: the creators below `k` are done. -/
structure Detecting (V : Validators) (G : EventDag) (bi : BranchesInfo)
    (F : Set StakerID) (id : EventID) (before : HighestBeforeSeq) (k : ℕ)
    (seq : HighestBeforeSeq) : Prop where
  size_eq : seq.size = bi.count
  fork : ∀ b < bi.count, bi.owner V b ∈ F ∨ (G.SeesFork id (bi.owner V b) ∧ bi.creatorOf b < k) →
    seq.get b = forkDetectedSeq
  rest : ∀ b < bi.count,
    ¬ (bi.owner V b ∈ F ∨ (G.SeesFork id (bi.owner V b) ∧ bi.creatorOf b < k)) →
    seq.get b = before.get b

lemma Detecting.step {k : ℕ} {seq : HighestBeforeSeq}
    (h : Detecting V G bi F id my.seq k seq) (hk : k < V.len) (hcount : V.len < bi.count) :
    ∃ seq', bi.detectFork V seq k = .ok seq' ∧ Detecting V G bi F id my.seq (k + 1) seq' := by
  have hkc : k < bi.count := hk.trans_le hbi.len_le
  have hkk := hbi.creatorOf_first k hk
  have howner : ∀ b < bi.count, bi.creatorOf b = k → bi.owner V b = bi.owner V k := fun b hb hbk =>
    by rw [← hbi.owner_creatorOf hb, hbk]
  -- nothing changes when the creator is marked already or does not fork
  have hkeep : bi.owner V k ∈ F ∨ ¬ G.SeesFork id (bi.owner V k) →
      Detecting V G bi F id my.seq (k + 1) seq := by
    intro hor
    have hiff : ∀ b < bi.count,
        (bi.owner V b ∈ F ∨ (G.SeesFork id (bi.owner V b) ∧ bi.creatorOf b < k + 1)) ↔
          (bi.owner V b ∈ F ∨ (G.SeesFork id (bi.owner V b) ∧ bi.creatorOf b < k)) := by
      intro b hb
      refine ⟨fun hf => ?_, fun hf => hf.imp_right fun hf => ⟨hf.1, by omega⟩⟩
      rcases hf with hf | ⟨hf, hlt⟩
      · exact Or.inl hf
      · rcases Nat.lt_succ_iff_lt_or_eq.mp hlt with hlt | heq
        · exact Or.inr ⟨hf, hlt⟩
        · rw [howner b hb heq] at hf ⊢
          exact Or.inl (hor.resolve_right (not_not.mpr hf))
    exact ⟨h.size_eq, fun b hb hf => h.fork b hb ((hiff b hb).mp hf),
      fun b hb hf => h.rest b hb fun hf' => hf ((hiff b hb).mpr hf')⟩
  unfold BranchesInfo.detectFork
  by_cases hF : bi.owner V k ∈ F
  · have : (seq.get k).isForkDetected = true := decide_eq_true (h.fork k hkc (Or.inl hF))
    exact ⟨seq, by simp only [this, if_true], hkeep (Or.inl hF)⟩
  have hsame : ∀ b ∈ bi.branchesOf k, seq.get b = my.seq.get b := by
    intro b hb
    obtain ⟨hlt, hbk⟩ := BranchesInfo.mem_branchesOf.mp hb
    refine h.rest b hlt fun hf => ?_
    rw [howner b hlt hbk] at hf
    exact hf.elim hF fun hf => by omega
  have hkmem : k ∈ bi.branchesOf k := BranchesInfo.mem_branchesOf.mpr ⟨hkc, hkk⟩
  have hnot : (seq.get k).isForkDetected = false := by
    rw [hsame k hkmem]
    exact (hm.summary k hkc hF).not_isForkDetected
      fun y hy => hS.seq_pos y (hS.sees_mem hid hy.1)
  have hany : ((bi.branchesOf k).any fun b₁ => (bi.branchesOf k).any fun b₂ =>
      b₁ ≠ b₂ && (seq.get b₁).overlaps (seq.get b₂)) = true ↔ G.SeesFork id (bi.owner V k) := by
    rw [← hm.overlaps_iff hbi hS hid hk hF, List.any_eq_true]
    refine exists_congr fun b₁ => and_congr_right fun hb₁ => ?_
    rw [List.any_eq_true]
    refine exists_congr fun b₂ => and_congr_right fun hb₂ => ?_
    rw [hsame b₁ hb₁, hsame b₂ hb₂, Bool.and_eq_true, decide_eq_true_eq]
  simp only [hnot, Bool.false_eq_true, if_false, hbi.byCreators k hk]
  by_cases hs : G.SeesFork id (bi.owner V k)
  · obtain ⟨marked, hmarked, hsize, hget⟩ := hbi.setForkDetected hcount h.size_eq hkc
    refine ⟨marked, by rw [if_pos (hany.mpr hs), hmarked], hsize, fun b hb hf => ?_,
      fun b hb hf => ?_⟩
    · rw [hget b hb, hkk]
      split_ifs with hbk
      · rfl
      · exact h.fork b hb (hf.imp_right fun hf => ⟨hf.1, by omega⟩)
    · have hbk : bi.creatorOf b ≠ k := fun hbk =>
        hf (Or.inr ⟨howner b hb hbk ▸ hs, by omega⟩)
      rw [hget b hb, hkk, if_neg hbk]
      exact h.rest b hb fun hf' => hf (hf'.imp_right fun hf' => ⟨hf'.1, by omega⟩)
  · exact ⟨seq, by rw [if_neg fun h => hs (hany.mp h)], hkeep (Or.inr hs)⟩

/-- Forks that no parent saw are found by comparing branches. -/
lemma Merged.detectForks (hF : ∀ v ∈ F, G.SeesFork id v) :
    ∃ seq, bi.detectForks V my.seq = .ok seq ∧ Before V G time br bi id { my with seq } := by
  obtain ⟨seq, hseq, h⟩ : ∃ seq, bi.detectForks V my.seq = .ok seq ∧
      Detecting V G bi F id my.seq V.len seq := by
    unfold BranchesInfo.detectForks
    by_cases hcount : V.len < bi.count
    · have : bi.atLeastOneFork V = true := decide_eq_true hcount
      rw [if_pos this]
      refine foldlM_range_ok (Detecting V G bi F id my.seq)
        ⟨hm.size_eq, fun b hb hf => ?_, fun _ _ _ => rfl⟩
        fun k hk seq h => h.step hbi hS hid hm hk hcount
      exact hm.fork b hb (hf.resolve_right fun hf => by omega)
    · -- no creator has a second branch
      have : bi.atLeastOneFork V = false := decide_eq_false hcount
      rw [if_neg (by simp [this])]
      have hnone : ∀ v, ¬ G.SeesFork id v := by
        rintro v ⟨x, y, hx, hy, -, hxy⟩
        exact hbi.not_fork_of_count (le_antisymm (not_lt.mp hcount) hbi.len_le)
          (hS.sees_mem hid hx) (hS.sees_mem hid hy) hxy
      refine ⟨my.seq, rfl, hm.size_eq, fun b hb hf => ?_, fun _ _ _ => rfl⟩
      exact absurd (hf.elim (fun hf => hF _ hf) And.left) (hnone _)
  refine ⟨seq, hseq, ?_, h.size_eq.le, fun b hb hs => ?_, fun b hb => ?_⟩
  · exact hbi.len_le.trans h.size_eq.ge
  · have hb' : b < bi.count := hb.trans_eq h.size_eq
    exact h.fork b hb' (Or.inr ⟨hs, hbi.creatorOf_lt b hb'⟩)
  · by_cases hlt : b < bi.count
    · have hs := hb (hlt.trans_eq h.size_eq.symm)
      have hnF : bi.owner V b ∉ F := fun hf => hs (hF _ hf)
      rw [show seq.get b = my.seq.get b from h.rest b hlt fun hf => hf.elim hnF fun hf => hs hf.1]
      exact hm.summary b hlt hnF
    · have hsize : seq.size ≤ b := h.size_eq.trans_le (not_lt.mp hlt)
      refine Or.inl ⟨Set.eq_empty_iff_forall_notMem.mpr fun y hy => hlt ?_,
        HighestBeforeSeq.get_of_size_le hsize⟩
      rw [← hy.2]
      exact hbi.br_lt y (hS.sees_mem hid hy.1)

end

/-- The clocks computed for a new event say what it sees. -/
theorem eventVecs_spec {getEvent : GetEvent} {e : Event} (size : ℕ)
    {vecs : EventID → BeforeVecs} (he : getEvent e.hash = some e)
    (htime : time e.hash = e.claimedTime) (hfits : e.seq < 2 ^ 32)
    (hbi : BranchInv V (eventDag getEvent) S br bi) (hS : (eventDag getEvent).Valid S)
    (hid : e.hash ∈ S) (hsize : bi.count = max size (br e.hash + 1))
    (hps : ∀ p ∈ e.parents, Before V (eventDag getEvent) time br bi p (vecs p)) :
    ∃ v, eventVecs bi V e size (br e.hash) (e.parents.map vecs) = .ok v ∧
      Before V (eventDag getEvent) time br bi e.hash v := by
  have hseq := seq_eventDag he
  have hparents := parents_eventDag he
  have hf : BranchSeq.Fits ⟨e.seq, e.seq⟩ := ⟨hfits, hfits⟩
  have hstart : Merged V (eventDag getEvent) time br bi ∅ {e.hash}
      ⟨(HighestBeforeSeq.new size).set (br e.hash) ⟨e.seq, e.seq⟩,
        (HighestBeforeTime.new size).set (br e.hash) e.claimedTime⟩ := by
    refine ⟨by simp [hsize], fun _ _ hf => absurd hf (Set.notMem_empty _), fun b hb _ => ?_⟩
    simp only [HighestBeforeSeq.get_set _ _ _ hf, HighestBeforeTime.get_set,
      HighestBeforeSeq.get_new]
    split_ifs with hbe
    · refine Or.inr ⟨e.hash, ⟨rfl, hbe.symm⟩, e.hash, ⟨rfl, hbe.symm⟩, by rw [hseq], htime.symm, ?_⟩
      rintro y ⟨rfl, -⟩
      exact ⟨le_rfl, le_rfl⟩
    · refine Or.inl ⟨Set.eq_empty_iff_forall_notMem.mpr ?_, rfl⟩
      rintro y ⟨rfl, hy⟩
      exact hbe hy.symm
  obtain ⟨my, hmy, hm⟩ := hstart.observeParents hbi hS
    (fun p hp => ⟨hS.parents_mem _ hid p (hparents ▸ hp), hps p hp⟩)
    (Set.singleton_subset_iff.mpr hid)
  have hsees : {e.hash} ∪ {y | ∃ p ∈ e.parents, (eventDag getEvent).Sees p y}
      = {y | (eventDag getEvent).Sees e.hash y} := by
    ext y
    rw [Set.mem_ofPred_eq, ForkDag.sees_iff, hparents]
    rfl
  rw [hsees, Set.empty_union] at hm
  have hF : ∀ v ∈ {v | ∃ p ∈ e.parents, (eventDag getEvent).SeesFork p v},
      (eventDag getEvent).SeesFork e.hash v := by
    rintro v ⟨p, hp, hv⟩
    exact hv.mono (ForkDag.Sees.of_mem_parents (hparents ▸ hp))
  obtain ⟨seq, hseq', hb⟩ := hm.detectForks hbi hS hid hF
  refine ⟨{ my with seq }, ?_, hb⟩
  simp only [eventVecs, hmy, bind, Except.bind, hseq', pure, Except.pure]

end

end Lachesis
