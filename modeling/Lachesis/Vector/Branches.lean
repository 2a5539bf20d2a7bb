import Lachesis.Eventcheck
import Lachesis.Vector.Index

/-!
# Branches are chains

Every stored event is on one branch of its creator, and the events on a branch are consecutive in
one self-parent chain. `BranchInv` states this of the branches info; assigning a new event keeps
it, wherever the event arrives.
-/

namespace Lachesis

open Lachesis.Core

variable {b : ℕ}

namespace BranchesInfo

def count (bi : BranchesInfo) : ℕ := bi.creatorIdxs.length

def creatorOf (bi : BranchesInfo) (b : ℕ) : ℕ := bi.creatorIdxs.getD b 0

def owner (bi : BranchesInfo) (V : Validators) (b : ℕ) : StakerID :=
  V.ids.getD (bi.creatorOf b) 0

/-- The greatest number on a branch. -/
def last (bi : BranchesInfo) (b : ℕ) : ℕ := bi.lastSeq.getD b 0

def branchesOf (bi : BranchesInfo) (i : ℕ) : List ℕ :=
  (List.range bi.count).filter fun b => bi.creatorOf b = i

lemma mem_branchesOf {bi : BranchesInfo} {i : ℕ} :
    b ∈ bi.branchesOf i ↔ b < bi.count ∧ bi.creatorOf b = i := by
  simp [branchesOf]

lemma creatorIdxs_getElem? {bi : BranchesInfo} (hb : b < bi.count) :
    bi.creatorIdxs[b]? = some (bi.creatorOf b) := by
  rw [creatorOf, List.getD_eq_getElem?_getD, List.getElem?_eq_getElem hb]
  rfl

/-- The branches after a new one was opened for the creator `meIdx`. -/
def opened (bi : BranchesInfo) (seq meIdx : ℕ) : BranchesInfo where
  lastSeq := bi.lastSeq ++ [seq]
  creatorIdxs := bi.creatorIdxs ++ [meIdx]
  byCreators := bi.byCreators.set meIdx (bi.branchesOf meIdx ++ [bi.count])

lemma getD_append_singleton (l : List ℕ) (a b : ℕ) :
    (l ++ [a]).getD b 0 = if b = l.length then a else l.getD b 0 := by
  simp only [List.getD_eq_getElem?_getD, List.getElem?_append]
  split_ifs with h₁ h₂ h₂
  · omega
  · rfl
  · simp [h₂]
  · rw [List.getElem?_eq_none (by simp; omega), List.getElem?_eq_none (by omega)]

@[simp] lemma count_opened (bi : BranchesInfo) (seq meIdx : ℕ) :
    (bi.opened seq meIdx).count = bi.count + 1 := by
  simp [count, opened]

lemma creatorOf_opened (bi : BranchesInfo) (seq meIdx b : ℕ) :
    (bi.opened seq meIdx).creatorOf b = if b = bi.count then meIdx else bi.creatorOf b :=
  getD_append_singleton bi.creatorIdxs meIdx b

lemma last_opened (bi : BranchesInfo) (hlen : bi.lastSeq.length = bi.count) (seq meIdx b : ℕ) :
    (bi.opened seq meIdx).last b = if b = bi.count then seq else bi.last b := by
  rw [← hlen]
  exact getD_append_singleton bi.lastSeq seq b

lemma branchesOf_opened (bi : BranchesInfo) (seq meIdx i : ℕ) :
    (bi.opened seq meIdx).branchesOf i
      = if i = meIdx then bi.branchesOf i ++ [bi.count] else bi.branchesOf i := by
  have hold : (List.range bi.count).filter (fun b => (bi.opened seq meIdx).creatorOf b = i)
      = bi.branchesOf i := by
    refine List.filter_congr fun b hb => ?_
    rw [creatorOf_opened, if_neg (List.mem_range.mp hb).ne]
  rw [branchesOf, count_opened, List.range_succ, List.filter_append, hold, List.filter_singleton,
    creatorOf_opened, if_pos rfl]
  split_ifs with h
  · simp [h]
  · simp [eq_comm (a := meIdx), h]

end BranchesInfo

/-- The branches of the events of `S`, the branch of each being `br`. -/
structure BranchInv (V : Validators) (G : EventDag) (S : Set EventID)
    (br : EventID → ℕ) (bi : BranchesInfo) : Prop where
  length_lastSeq : bi.lastSeq.length = bi.count
  len_le : V.len ≤ bi.count
  creatorOf_lt : ∀ b < bi.count, bi.creatorOf b < V.len
  creatorOf_first : ∀ i < V.len, bi.creatorOf i = i
  byCreators : ∀ i < V.len, bi.byCreators[i]? = some (bi.branchesOf i)
  length_byCreators : bi.byCreators.length = V.len
  br_lt : ∀ x ∈ S, br x < bi.count
  owner_br : ∀ x ∈ S, bi.owner V (br x) = G.creator x
  le_last : ∀ x ∈ S, G.seq x ≤ bi.last (br x)
  exists_last : ∀ b < bi.count, bi.last b ≠ 0 → ∃ x ∈ S, br x = b ∧ G.seq x = bi.last b
  /-- The events of a branch are told apart by their numbers. -/
  eq_of_seq : ∀ x ∈ S, ∀ y ∈ S, br x = br y → G.seq x = G.seq y → x = y
  /-- Only the lowest event of a branch has its self-parent elsewhere. -/
  chain : ∀ x ∈ S, ∀ y ∈ S, br x = br y → G.seq x < G.seq y →
    ∃ p ∈ S, G.selfParent y = some p ∧ br p = br y

namespace BranchInv

variable {V : Validators} {G : EventDag} {S : Set EventID} {br : EventID → ℕ}
variable {bi : BranchesInfo}

variable {x : EventID}

section

variable (h : BranchInv V G S br bi)
include h

lemma ids_creatorOf (hb : b < bi.count) : V.ids[bi.creatorOf b]? = some (bi.owner V b) := by
  have hlt := h.creatorOf_lt b hb
  rw [← V.length_ids] at hlt
  rw [BranchesInfo.owner, List.getD_eq_getElem?_getD, List.getElem?_eq_getElem hlt]
  rfl

lemma owner_mem (hb : b < bi.count) : bi.owner V b ∈ V.members :=
  (Validators.getIdx_of_ids (h.ids_creatorOf hb)).1

lemma getIdx_owner (hb : b < bi.count) : V.getIdx (bi.owner V b) = bi.creatorOf b :=
  (Validators.getIdx_of_ids (h.ids_creatorOf hb)).2

lemma creatorOf_le (hb : b < bi.count) : bi.creatorOf b ≤ b := by
  by_cases hlt : b < V.len
  · exact (h.creatorOf_first b hlt).le
  · have := h.creatorOf_lt b hb
    omega

lemma owner_creatorOf (hb : b < bi.count) : bi.owner V (bi.creatorOf b) = bi.owner V b := by
  rw [BranchesInfo.owner, BranchesInfo.owner, h.creatorOf_first _ (h.creatorOf_lt b hb)]

lemma creator_mem (hx : x ∈ S) : G.creator x ∈ V.members := by
  rw [← h.owner_br x hx]
  exact h.owner_mem (h.br_lt x hx)

lemma creatorOf_br (hx : x ∈ S) : bi.creatorOf (br x) = V.getIdx (G.creator x) := by
  rw [← h.owner_br x hx, h.getIdx_owner (h.br_lt x hx)]

lemma br_of_count (hcount : bi.count = V.len) (hx : x ∈ S) : br x = V.getIdx (G.creator x) := by
  rw [← h.creatorOf_br hx, h.creatorOf_first _ (hcount ▸ h.br_lt x hx)]

/-- Without more branches than validators there is no fork. -/
lemma not_fork_of_count (hcount : bi.count = V.len) {y : EventID} (hx : x ∈ S) (hy : y ∈ S) :
    ¬ G.Fork x y := by
  rintro ⟨hne, hc, hs⟩
  refine hne (h.eq_of_seq x hx y hy ?_ hs)
  rw [h.br_of_count hcount hx, h.br_of_count hcount hy, hc]

/-- Going down a branch stays on it: every number between two of its events is on it too. -/
lemma exists_on_branch (hS : G.Valid S) {y : EventID} (hx : x ∈ S) (hy : y ∈ S) (hbr : br x = br y)
    {k : ℕ} (hxk : G.seq x ≤ k) (hky : k ≤ G.seq y) :
    ∃ z, G.SelfSees y z ∧ br z = br y ∧ G.seq z = k := by
  obtain ⟨d, hd⟩ := Nat.exists_eq_add_of_le hky
  induction d generalizing y with
  | zero => exact ⟨y, ForkDag.SelfSees.refl y, rfl, by omega⟩
  | succ d ih =>
    obtain ⟨p, hpS, hp, hpbr⟩ := h.chain x hx y hy hbr (by omega)
    have hseq := hS.selfParent_seq y hy p hp
    obtain ⟨z, hz, hzbr, hzk⟩ := ih hpS (hbr.trans hpbr.symm) (by omega) (by omega)
    exact ⟨z, Relation.ReflTransGen.head hp hz, hzbr.trans hpbr, hzk⟩

/-- A branch is a chain. -/
lemma sees_of_seq_le (hS : G.Valid S) {y : EventID} (hx : x ∈ S) (hy : y ∈ S) (hbr : br x = br y)
    (hle : G.seq x ≤ G.seq y) : G.Sees y x := by
  obtain ⟨z, hz, hzbr, hzs⟩ := h.exists_on_branch hS hx hy hbr le_rfl hle
  have hyz := hS.selfSees_sees hy hz
  have hzx : z = x := h.eq_of_seq z (hS.sees_mem hy hyz) x hx (hzbr.trans hbr.symm) hzs
  exact hzx ▸ hyz

end

/-! ### Assigning a branch -/

lemma initial (V : Validators) (G : EventDag) (br : EventID → ℕ) :
    BranchInv V G ∅ br (newInitialBranchesInfo V) := by
  have hcreator : ∀ i < V.len, (newInitialBranchesInfo V).creatorOf i = i := by
    intro i hi
    simp [BranchesInfo.creatorOf, newInitialBranchesInfo, List.getD_eq_getElem?_getD, hi]
  have hcount : (newInitialBranchesInfo V).count = V.len := by
    simp [BranchesInfo.count, newInitialBranchesInfo]
  have hbranches : ∀ i < V.len, (newInitialBranchesInfo V).branchesOf i = [i] := by
    intro i hi
    have hfilter : (List.range V.len).filter (fun b => b = i) = [i] := by
      rw [List.filter_eq, List.nodup_range.count, if_pos (List.mem_range.mpr hi)]
      rfl
    rw [BranchesInfo.branchesOf, hcount, ← hfilter]
    refine List.filter_congr fun b hb => ?_
    rw [hcreator b (List.mem_range.mp hb)]
  refine ⟨by simp [BranchesInfo.count, newInitialBranchesInfo], hcount.ge,
    fun b hb => ?_, hcreator, fun i hi => ?_, by simp [newInitialBranchesInfo], by simp, by simp,
    by simp, fun b hb hne => ?_, by simp, by simp⟩
  · rw [hcount] at hb
    rwa [hcreator b hb]
  · rw [hbranches i hi]
    simp [newInitialBranchesInfo, hi]
  · exfalso
    rw [hcount] at hb
    apply hne
    simp [BranchesInfo.last, newInitialBranchesInfo, List.getD_eq_getElem?_getD, hb]

lemma update_br {id : EventID} (hid : id ∉ S) (hx : x ∈ S) : Function.update br id b x = br x :=
  Function.update_of_ne (ne_of_mem_of_not_mem hx hid) _ _

section

variable {id : EventID} (h : BranchInv V G S br bi) (hid : id ∉ S)
include h hid

lemma eq_of_seq_insert (hbelow : ∀ x ∈ S, br x = b → G.seq x < G.seq id) :
    ∀ x ∈ insert id S, ∀ y ∈ insert id S, Function.update br id b x = Function.update br id b y →
      G.seq x = G.seq y → x = y := by
  rintro x (rfl | hx) y (rfl | hy) hxy hs
  · rfl
  · rw [Function.update_self, update_br hid hy] at hxy
    exact absurd hs (hbelow y hy hxy.symm).ne'
  · rw [Function.update_self, update_br hid hx] at hxy
    exact absurd hs (hbelow x hx hxy).ne
  · rw [update_br hid hx, update_br hid hy] at hxy
    exact h.eq_of_seq x hx y hy hxy hs

lemma chain_insert (hbelow : ∀ x ∈ S, br x = b → G.seq x < G.seq id)
    (hchain : ∀ x ∈ S, br x = b → ∃ p ∈ S, G.selfParent id = some p ∧ br p = b) :
    ∀ x ∈ insert id S, ∀ y ∈ insert id S, Function.update br id b x = Function.update br id b y →
      G.seq x < G.seq y → ∃ p ∈ insert id S, G.selfParent y = some p ∧
        Function.update br id b p = Function.update br id b y := by
  rintro x (rfl | hx) y (rfl | hy) hxy hs
  · omega
  · rw [Function.update_self, update_br hid hy] at hxy
    exact absurd hs (hbelow y hy hxy.symm).not_gt
  · rw [Function.update_self, update_br hid hx] at hxy
    obtain ⟨p, hpS, hps, hpb⟩ := hchain x hx hxy
    exact ⟨p, Set.mem_insert_of_mem _ hpS, hps,
      by rw [update_br hid hpS, Function.update_self, hpb]⟩
  · rw [update_br hid hx, update_br hid hy] at hxy
    obtain ⟨p, hpS, hps, hpb⟩ := h.chain x hx y hy hxy hs
    exact ⟨p, Set.mem_insert_of_mem _ hpS, hps,
      by rw [update_br hid hpS, update_br hid hy, hpb]⟩

/-- An event that follows the last one of a branch continues it. -/
lemma continueBranch (hb : b < bi.count) (howner : bi.owner V b = G.creator id)
    (hlast : bi.last b < G.seq id)
    (hchain : ∀ x ∈ S, br x = b → ∃ p ∈ S, G.selfParent id = some p ∧ br p = b) :
    BranchInv V G (insert id S) (Function.update br id b)
      { bi with lastSeq := bi.lastSeq.set b (G.seq id) } := by
  have hbr : ∀ x ∈ S, Function.update br id b x = br x := fun x hx => update_br hid hx
  have hlast' : ∀ b', BranchesInfo.last { bi with lastSeq := bi.lastSeq.set b (G.seq id) } b'
      = if b' = b then G.seq id else bi.last b' := by
    intro b'
    have hlen := h.length_lastSeq
    simp only [BranchesInfo.last, List.getD_eq_getElem?_getD, List.getElem?_set]
    split_ifs with h₁ h₂ h₃ h₃ <;> first | rfl | omega
  have hle : ∀ x ∈ S, br x = b → G.seq x < G.seq id := fun x hx hxb =>
    lt_of_le_of_lt (hxb ▸ h.le_last x hx) hlast
  refine ⟨by simp [BranchesInfo.count, h.length_lastSeq], h.len_le, h.creatorOf_lt,
    h.creatorOf_first, h.byCreators, h.length_byCreators, ?_, ?_, ?_, ?_, ?_, ?_⟩
  · rintro x (rfl | hx)
    · rw [Function.update_self]
      exact hb
    · rw [hbr x hx]
      exact h.br_lt x hx
  · rintro x (rfl | hx)
    · rw [Function.update_self]
      exact howner
    · rw [hbr x hx]
      exact h.owner_br x hx
  · rintro x (rfl | hx)
    · simp [hlast']
    · rw [hbr x hx, hlast']
      split_ifs with hxb
      · exact (hle x hx hxb).le
      · exact h.le_last x hx
  · intro b' hb' hne
    rw [hlast'] at hne ⊢
    split_ifs at hne ⊢ with hbb
    · exact ⟨id, Set.mem_insert _ _, by simp [hbb], rfl⟩
    · obtain ⟨x, hx, hxb, hxs⟩ := h.exists_last b' hb' hne
      exact ⟨x, Set.mem_insert_of_mem _ hx, by rw [hbr x hx, hxb], hxs⟩
  · exact h.eq_of_seq_insert hid hle
  · exact h.chain_insert hid hle hchain

/-- A branch can be opened for any event of a validator. -/
lemma openBranch (hc : G.creator id ∈ V.members) :
    BranchInv V G (insert id S) (Function.update br id bi.count)
      (bi.opened (G.seq id) (V.getIdx (G.creator id))) := by
  have hidx := Validators.getIdx_lt hc
  have hbr : ∀ x ∈ S, Function.update br id bi.count x = br x := fun x hx => update_br hid hx
  have hne : ∀ x ∈ S, br x ≠ bi.count := fun x hx => (h.br_lt x hx).ne
  refine ⟨by simp [BranchesInfo.opened, BranchesInfo.count, h.length_lastSeq], ?_, ?_, ?_, ?_,
    by simp [BranchesInfo.opened, h.length_byCreators], ?_, ?_, ?_, ?_, ?_, ?_⟩
  · rw [BranchesInfo.count_opened]
    exact Nat.le_succ_of_le h.len_le
  · intro b hb
    rw [BranchesInfo.creatorOf_opened]
    rw [BranchesInfo.count_opened] at hb
    split_ifs with hbc
    · exact hidx
    · exact h.creatorOf_lt b (by omega)
  · intro i hi
    have := h.len_le
    rw [BranchesInfo.creatorOf_opened, if_neg (by omega)]
    exact h.creatorOf_first i hi
  · intro i hi
    rw [BranchesInfo.branchesOf_opened, BranchesInfo.opened, List.getElem?_set,
      h.length_byCreators, h.byCreators i hi]
    split_ifs with h₁ h₂ h₃ <;> first | rfl | omega | skip
    rw [h₁]
  · rintro x (rfl | hx)
    · simp
    · rw [hbr x hx, BranchesInfo.count_opened]
      exact Nat.lt_succ_of_lt (h.br_lt x hx)
  · rintro x (rfl | hx)
    · rw [Function.update_self, BranchesInfo.owner, BranchesInfo.creatorOf_opened, if_pos rfl,
        List.getD_eq_getElem?_getD, Validators.ids_getIdx hc]
      rfl
    · rw [hbr x hx, BranchesInfo.owner, BranchesInfo.creatorOf_opened, if_neg (hne x hx)]
      exact h.owner_br x hx
  · rintro x (rfl | hx)
    · rw [Function.update_self, bi.last_opened h.length_lastSeq, if_pos rfl]
    · rw [hbr x hx, bi.last_opened h.length_lastSeq, if_neg (hne x hx)]
      exact h.le_last x hx
  · intro b hb hlast
    rw [bi.last_opened h.length_lastSeq] at hlast ⊢
    split_ifs at hlast ⊢ with hbc
    · exact ⟨id, Set.mem_insert _ _, by rw [Function.update_self, hbc], rfl⟩
    · rw [BranchesInfo.count_opened] at hb
      obtain ⟨x, hx, hxb, hxs⟩ := h.exists_last b (by omega) hlast
      exact ⟨x, Set.mem_insert_of_mem _ hx, by rw [hbr x hx, hxb], hxs⟩
  · exact h.eq_of_seq_insert hid fun x hx hxb => absurd hxb (hne x hx)
  · exact h.chain_insert hid (fun x hx hxb => absurd hxb (hne x hx))
      fun x hx hxb => absurd hxb (hne x hx)

end

/-- The branches `bi'` after a new event was put on the branch `b`. -/
structure Assigned (V : Validators) (G : EventDag) (S : Set EventID)
    (br : EventID → ℕ) (bi : BranchesInfo) (id : EventID) (bi' : BranchesInfo) (b : ℕ) : Prop where
  inv : BranchInv V G (insert id S) (Function.update br id b) bi'
  count_eq : bi'.count = max bi.count (b + 1)
  creatorOf_eq : ∀ b' < bi.count, bi'.creatorOf b' = bi.creatorOf b'

/-- Every new event whose self-parent is stored gets a branch. -/
theorem assign_spec {getEvent : GetEvent} {e : Event}
    (h : BranchInv V (eventDag getEvent) S br bi) (hS : (eventDag getEvent).Valid (insert e.hash S))
    (he : getEvent e.hash = some e) (hid : e.hash ∉ S) (hc : e.creator ∈ V.members)
    (hp : ∀ p, e.selfParent = some p → p ∈ S) :
    ∃ bi' b, bi.assign e (V.getIdx e.creator) (e.selfParent.map br) = .ok (bi', b) ∧
      Assigned V (eventDag getEvent) S br bi e.hash bi' b := by
  have hseq : (eventDag getEvent).seq e.hash = e.seq := seq_eventDag he
  have hcre : (eventDag getEvent).creator e.hash = e.creator := creator_eventDag he
  have hsp : (eventDag getEvent).selfParent e.hash = e.selfParent := selfParent_eventDag he
  have hlast : ∀ b < bi.count, bi.lastSeq[b]? = some (bi.last b) := by
    intro b hb
    rw [← h.length_lastSeq] at hb
    rw [BranchesInfo.last, List.getD_eq_getElem?_getD, List.getElem?_eq_getElem hb]
    rfl
  -- the event continues the branch `b`
  have hcont : ∀ b < bi.count, bi.owner V b = e.creator → bi.last b < e.seq →
      (∀ x ∈ S, br x = b → ∃ p ∈ S, e.selfParent = some p ∧ br p = b) →
      Assigned V (eventDag getEvent) S br bi e.hash
        { bi with lastSeq := bi.lastSeq.set b e.seq } b := by
    intro b hb howner hlt hchain
    rw [← hseq] at hlt ⊢
    exact ⟨h.continueBranch hid hb (hcre ▸ howner) hlt (hsp ▸ hchain),
      by simp only [BranchesInfo.count] at hb ⊢; omega, fun _ _ => rfl⟩
  -- the event opens a branch
  have hopen : ∃ bi' b, bi.newBranch e.seq (V.getIdx e.creator) = .ok (bi', b) ∧
      Assigned V (eventDag getEvent) S br bi e.hash bi' b := by
    refine ⟨bi.opened e.seq (V.getIdx e.creator), bi.count, ?_, ?_, by simp, fun b' hb' => ?_⟩
    · simp only [BranchesInfo.newBranch, h.byCreators _ (Validators.getIdx_lt hc),
        h.length_lastSeq, BranchesInfo.opened]
    · have := h.openBranch hid (hcre ▸ hc)
      rwa [hseq, hcre] at this
    · rw [BranchesInfo.creatorOf_opened, if_neg hb'.ne]
  unfold BranchesInfo.assign
  cases hcase : e.selfParent with
  | none =>
    have hidx : V.getIdx e.creator < V.len := Validators.getIdx_lt hc
    have hb : V.getIdx e.creator < bi.count := lt_of_lt_of_le hidx h.len_le
    simp only [Option.map_none, hlast _ hb]
    split_ifs with h₀
    · refine ⟨_, _, rfl, hcont _ hb ?_ ?_ fun x hx hxb => ?_⟩
      · rw [BranchesInfo.owner, h.creatorOf_first _ hidx, List.getD_eq_getElem?_getD,
          Validators.ids_getIdx hc]
        rfl
      · rw [h₀, ← hseq]
        exact hS.seq_pos _ (Set.mem_insert _ _)
      · -- a branch with nothing on it
        have hle := h.le_last x hx
        have hpos := hS.seq_pos x (Set.mem_insert_of_mem _ hx)
        rw [hxb] at hle
        omega
    · exact hopen
  | some p =>
    have hpS := hp p hcase
    have hps := hsp.trans hcase
    simp only [Option.map_some, hlast _ (h.br_lt p hpS)]
    split_ifs with h₀
    · refine ⟨_, _, rfl, hcont _ (h.br_lt p hpS) ?_ (by omega) fun x _ _ => ⟨p, hpS, hcase, rfl⟩⟩
      rw [h.owner_br p hpS, hS.selfParent_creator _ (Set.mem_insert _ _) p hps, hcre]
    · exact hopen

end BranchInv

end Lachesis
