import Lachesis.Core.Run
import Lachesis.Core.VirtualVoting
import Lachesis.Poset.Election

/-!
# The election is virtual voting

Every vote an election keeps is the vote of the abstract ballots, which depends on who observes whom
and on nothing else. Therefore the outcome of an election is a function of the set of roots that it
processed, whatever their order, and elections over different sets of roots never disagree.
-/

namespace Lachesis

open Lachesis.Core Std

/-! ### Roots as ballots -/

/-- Roots, their slots and which of them observe which. -/
structure RootGraph where
  roots : Set EventID
  slot : EventID → Slot
  observe : EventID → EventID → Bool

namespace RootGraph

variable (R : RootGraph)

def rootAndSlot (r : EventID) : RootAndSlot := ⟨r, R.slot r⟩

/-- The validators whose root of the previous frame is observed by `r`. -/
def observedBy (V : Validators) (r : EventID) (v : StakerID) : Prop :=
  v ∈ V.members ∧ ∃ b ∈ R.roots, (R.slot b).frame + 1 = (R.slot r).frame ∧
    (R.slot b).validator = v ∧ R.observe r b = true

/-- The roots from the frame `f` on vote on the validators. -/
def ballots (V : Validators) (f : ℕ) : Ballots EventID StakerID where
  cast := {r | r ∈ R.roots ∧ f ≤ (R.slot r).frame}
  voters := V.members
  wt := V.stakeOf
  quorum := V.quorum.toNat
  round r := (R.slot r).frame - f
  owner r := (R.slot r).validator
  sees r b := R.observe r b = true

open Classical in
/-- What an election over the frame `f` needs of the roots. -/
structure Electable (V : Validators) (f : ℕ) : Prop where
  total_lt : V.total < 2 ^ 63
  validator_mem : ∀ r ∈ R.roots, (R.slot r).validator ∈ V.members
  /-- Of the roots of one slot at most one is observed. -/
  unique : ∀ r ∈ R.roots, ∀ r' ∈ R.roots, ∀ b ∈ R.roots, ∀ b' ∈ R.roots, R.observe r b = true →
    R.observe r' b' = true → R.slot b = R.slot b' → b = b'
  /-- A root of a later frame observes a quorum of the frame before it. -/
  quorum : ∀ r ∈ R.roots, f < (R.slot r).frame →
    V.quorum.toNat ≤ weight V.stakeOf (V.members.filter (R.observedBy V r))

/-- `a` is the root of `s` that is voted on: some root of the next frame observes it. -/
def Candidate (f : ℕ) (s : StakerID) (a : EventID) : Prop :=
  a ∈ R.roots ∧ R.slot a = ⟨f, s⟩ ∧
    ∃ r ∈ R.roots, (R.slot r).frame = f + 1 ∧ R.observe r a = true

variable {R} {V : Validators} {f : ℕ} {r s a b : EventID}

open Classical in
lemma seen_ballots (hr : f < (R.slot r).frame) :
    (R.ballots V f).seen r = V.members.filter (R.observedBy V r) := by
  ext v
  simp only [Ballots.seen, Ballots.mem_supporters, ballots, Finset.mem_filter, observedBy,
    Set.mem_ofPred_eq, and_true]
  constructor
  · rintro ⟨hv, b, ⟨hb, hbf⟩, hround, hbv, hobs⟩
    exact ⟨hv, hv, b, hb, by omega, hbv, hobs⟩
  · rintro ⟨hv, -, b, hb, hround, hbv, hobs⟩
    exact ⟨hv, b, ⟨hb, by omega⟩, by omega, hbv, hobs⟩

namespace Electable

variable (h : R.Electable V f)
include h

/-- The roots of an electable graph are lawful ballots. -/
lemma lawful : (R.ballots V f).Lawful where
  unique r hr r' hr' b hb b' hb' hs hs' hround howner := by
    refine h.unique r hr.1 r' hr'.1 b hb.1 b' hb'.1 hs hs' ?_
    have hb₁ := hb.2
    have hb₂ := hb'.2
    have hframe : (R.slot b).frame = (R.slot b').frame := by
      simp only [ballots] at hround
      omega
    cases hsb : R.slot b
    cases hsb' : R.slot b'
    simp_all [ballots]
  quorum_seen r hr hround := by
    have hlt : f < (R.slot r).frame := by
      simp only [ballots] at hround
      omega
    rw [seen_ballots hlt]
    exact h.quorum r hr.1 hlt
  supermajority := V.supermajority h.total_lt

lemma candidate_unique {a a' : EventID} (ha : R.Candidate f s a) (ha' : R.Candidate f s a') :
    a = a' := by
  obtain ⟨har, has, r, hr, -, hobs⟩ := ha
  obtain ⟨har', has', r', hr', -, hobs'⟩ := ha'
  exact h.unique r hr r' hr' a har a' har' hobs hobs' (has.trans has'.symm)

end Electable

/-! ### The outcome as a function of the roots -/

section Outcome

variable (R V f)

/-- The vote of the root `r` on the validator `s`. -/
def VotesFor (s : StakerID) (r : EventID) : Prop :=
  (R.ballots V f).vote (fun b => s ∈ (R.ballots V f).seen b) r

/-- Some root of `P` decides `s` with yes. -/
def DecidedYes (P : Set EventID) (s : StakerID) : Prop :=
  ∃ r ∈ P, r ∈ R.roots ∧ f + 2 ≤ (R.slot r).frame ∧
    (R.ballots V f).DecidesYes (fun b => s ∈ (R.ballots V f).seen b) r

/-- Some root of `P` decides `s` with no. -/
def DecidedNo (P : Set EventID) (s : StakerID) : Prop :=
  ∃ r ∈ P, r ∈ R.roots ∧ f + 2 ≤ (R.slot r).frame ∧
    (R.ballots V f).DecidesNo (fun b => s ∈ (R.ballots V f).seen b) r

/-- The roots of `P` elect `a`: its validator is decided with yes and all before it with no. -/
def Elected (P : Set EventID) (a : EventID) : Prop :=
  ∃ l s l', V.ids = l ++ s :: l' ∧ (∀ u ∈ l, R.DecidedNo V f P u) ∧ R.DecidedYes V f P s ∧
    R.Candidate f s a

end Outcome

section

variable {P P' : Set EventID} {a' : EventID}

lemma Elected.of_above (h : R.Elected V f P a)
    (hP : ∀ r ∈ R.roots, f + 2 ≤ (R.slot r).frame → r ∈ P → r ∈ P') : R.Elected V f P' a := by
  obtain ⟨l, s, l', hids, hno, ⟨r, hr, hroot, hframe, hyes⟩, ha⟩ := h
  refine ⟨l, s, l', hids, fun u hu => ?_, ⟨r, hP r hroot hframe hr, hroot, hframe, hyes⟩, ha⟩
  obtain ⟨r', hr', hroot', hframe', hno'⟩ := hno u hu
  exact ⟨r', hP r' hroot' hframe' hr', hroot', hframe', hno'⟩

lemma Elected.mono (h : R.Elected V f P a) (hP : P ⊆ P') : R.Elected V f P' a :=
  h.of_above fun _ _ _ hr => hP hr

/-- What is elected by roots that are closed under what they observe is one of them. -/
lemma Elected.mem (hE : R.Electable V f) (hP : ∀ r ∈ P, ∀ b ∈ R.roots, R.observe r b = true →
    (R.slot b).frame + 1 = (R.slot r).frame → b ∈ P) (h : R.Elected V f P a) : a ∈ P := by
  obtain ⟨l, s, l', -, -, ⟨r, hr, hroot, hframe, hyes⟩, ha⟩ := h
  have hclosed : ∀ r ∈ P, ∀ b ∈ (R.ballots V f).cast, (R.ballots V f).sees r b →
      (R.ballots V f).round b + 1 = (R.ballots V f).round r → b ∈ P := by
    intro r hr b hb hs hround
    have hbf := hb.2
    simp only [ballots] at hround
    exact hP r hr b hb.1 hs (by omega)
  have hpos := hE.lawful.quorum_pos.trans_le hyes
  obtain ⟨b, hb, hbr, hs, hvote⟩ := Ballots.exists_of_weight_supporters_pos hpos
  have hround : (R.ballots V f).round b = (R.slot b).frame - f - 1 + 1 := by
    simp only [ballots] at hbr ⊢
    omega
  obtain ⟨d, hd, hdcast, hdround, hseen⟩ :=
    hE.lawful.exists_init_of_vote hclosed (hclosed r hr b hb hs hbr) hb hround hvote
  obtain ⟨-, c, hc, hcr, hcs, hsees, -⟩ := Ballots.mem_supporters.mp hseen
  have hdf : (R.slot d).frame = f + 1 := by
    simp only [ballots] at hdround
    omega
  have hcf : (R.slot c).frame = f := by
    have := hc.2
    simp only [ballots] at hcr
    omega
  have hcand : R.Candidate f s c := by
    refine ⟨hc.1, ?_, d, hdcast.1, hdf, hsees⟩
    cases hslot : R.slot c
    simp_all [ballots]
  rw [hE.candidate_unique ha hcand]
  exact hP d hd c hc.1 hsees (by omega)

lemma Electable.not_decided_both (h : R.Electable V f) {s : StakerID} (hyes : R.DecidedYes V f P s)
    (hno : R.DecidedNo V f P' s) : False := by
  obtain ⟨r, -, hr, hframe, hyes⟩ := hyes
  obtain ⟨r', -, hr', hframe', hno⟩ := hno
  exact h.lawful.not_decidesYes_and_decidesNo _ ⟨hr, by omega⟩ ⟨hr', by omega⟩
    (by simp only [ballots]; omega) (by simp only [ballots]; omega) hyes hno

/-- No two sets of roots elect different roots. -/
theorem Electable.elected_unique (h : R.Electable V f) (ha : R.Elected V f P a)
    (ha' : R.Elected V f P' a') : a = a' := by
  obtain ⟨l₁, s₁, l₁', hids₁, hno₁, hyes₁, hc₁⟩ := ha
  obtain ⟨l₂, s₂, l₂', hids₂, hno₂, hyes₂, hc₂⟩ := ha'
  have hs : s₁ = s₂ := by
    rcases List.append_eq_append_iff.mp (hids₁.symm.trans hids₂) with
      ⟨m, hm, hm'⟩ | ⟨m, hm, hm'⟩
    · cases m with
      | nil => exact (List.cons.inj hm').1
      | cons u m =>
        obtain rfl : s₁ = u := (List.cons.inj hm').1
        exact (h.not_decided_both hyes₁ (hno₂ s₁ (by simp [hm]))).elim
    · cases m with
      | nil => exact (List.cons.inj hm').1.symm
      | cons u m =>
        obtain rfl : s₂ = u := (List.cons.inj hm').1
        exact (h.not_decided_both hyes₂ (hno₁ s₂ (by simp [hm]))).elim
  subst hs
  exact h.candidate_unique hc₁ hc₂

/-- Some validator is never decided with no. -/
theorem Electable.exists_not_decidedNo (h : R.Electable V f) (hne : V.members.Nonempty) :
    ∃ s ∈ V.members, ∀ P, ¬ R.DecidedNo V f P s := by
  obtain ⟨s, hs, hvote⟩ := h.lawful.exists_candidate hne fun r hr hround => by
    have hlt : f < (R.slot r).frame := by
      simp only [ballots] at hround
      omega
    rw [seen_ballots hlt]
    exact h.quorum r hr.1 hlt
  refine ⟨s, hs, ?_⟩
  rintro P ⟨r, -, hr, hframe, hno⟩
  have hround : 2 ≤ (R.ballots V f).round r := by
    simp only [ballots]
    omega
  exact h.lawful.not_vote_of_decidesNo _ ⟨hr, by omega⟩ ⟨hr, by omega⟩ hround rfl hno
    (hvote r ⟨hr, by omega⟩ hround)

end

end RootGraph

/-! ### One subject -/

section Subject

variable {R : RootGraph} {V : Validators} {f : ℕ} {r : EventID} {s : StakerID} {el : Election}
variable {observed : List RootAndSlot}

/-- The list of the roots of the previous frame that `r` observes. -/
structure RootGraph.Observes (R : RootGraph) (r : EventID) (observed : List RootAndSlot) : Prop where
  nodup : observed.Nodup
  mem_iff : ∀ x, x ∈ observed ↔ ∃ b ∈ R.roots, x = R.rootAndSlot b ∧
    (R.slot b).frame + 1 = (R.slot r).frame ∧ R.observe r b = true

/-- The election keeps the right vote of the root `b` on `s`. -/
def Election.RightVote (R : RootGraph) (V : Validators) (f : ℕ) (el : Election) (b : EventID)
    (s : StakerID) : Prop :=
  ∃ vote, el.votes[(⟨b, s⟩ : VoteID)]? = some vote ∧ (vote.yes = true ↔ R.VotesFor V f s b) ∧
    (vote.yes = true → R.Candidate f s vote.observedRoot)

open Classical in
/-- The validators of the roots of a list that satisfy `P`. -/
noncomputable def voters (V : Validators) (l : List RootAndSlot) (P : EventID → Prop) :
    Finset StakerID :=
  V.members.filter fun v => ∃ x ∈ l, x.slot.validator = v ∧ P x.id

variable {l : List RootAndSlot} {P : EventID → Prop}

lemma mem_voters {v : StakerID} :
    v ∈ voters V l P ↔ v ∈ V.members ∧ ∃ x ∈ l, x.slot.validator = v ∧ P x.id := by
  simp [voters]

variable {x : RootAndSlot}

lemma voters_append_pos (hx : x.slot.validator ∈ V.members) (hP : P x.id) :
    voters V (l ++ [x]) P = insert x.slot.validator (voters V l P) := by
  ext v
  simp only [mem_voters, Finset.mem_insert, List.mem_append, List.mem_singleton]
  constructor
  · rintro ⟨hv, y, hy | rfl, rfl, hPy⟩
    · exact Or.inr ⟨hv, y, hy, rfl, hPy⟩
    · exact Or.inl rfl
  · rintro (rfl | ⟨hv, y, hy, hyv, hPy⟩)
    · exact ⟨hx, x, Or.inr rfl, rfl, hP⟩
    · exact ⟨hv, y, Or.inl hy, hyv, hPy⟩

lemma voters_append_neg (hP : ¬ P x.id) : voters V (l ++ [x]) P = voters V l P := by
  ext v
  simp only [mem_voters, List.mem_append, List.mem_singleton]
  constructor
  · rintro ⟨hv, y, hy | rfl, hyv, hPy⟩
    · exact ⟨hv, y, hy, hyv, hPy⟩
    · exact absurd hPy hP
  · rintro ⟨hv, y, hy, hyv, hPy⟩
    exact ⟨hv, y, Or.inl hy, hyv, hPy⟩

lemma RootGraph.Observes.voters_eq (h : R.Observes r observed) (hr : f < (R.slot r).frame)
    (P : EventID → Prop) : voters V observed P = (R.ballots V f).supporters r P := by
  ext v
  simp only [mem_voters, Ballots.mem_supporters, RootGraph.ballots, h.mem_iff,
    Set.mem_ofPred_eq]
  refine and_congr_right fun _ => ⟨?_, ?_⟩
  · rintro ⟨_, ⟨b, hb, rfl, hframe, hobs⟩, hv, hP⟩
    exact ⟨b, ⟨hb, by omega⟩, by omega, hv, hobs, hP⟩
  · rintro ⟨b, ⟨hb, hbf⟩, hround, hv, hobs, hP⟩
    exact ⟨_, ⟨b, hb, rfl, by omega, hobs⟩, hv, hP⟩

/-- The counters after the votes of the roots `done`. -/
structure Election.Tally.Counts (R : RootGraph) (V : Validators) (f : ℕ) (s : StakerID)
    (done : List RootAndSlot) (t : Election.Tally) : Prop where
  yes : t.yesVotes.Counted V (voters V done (R.VotesFor V f s))
  no : t.noVotes.Counted V (voters V done fun b => ¬ R.VotesFor V f s b)
  all : t.allVotes.Counted V (voters V done fun _ => True)
  subject : ∀ a, t.subjectHash = some a → R.Candidate f s a
  subject_isSome : ∀ x ∈ done, R.VotesFor V f s x.id → t.subjectHash.isSome

lemma Election.Tally.counts_nil (R : RootGraph) (f : ℕ) (s : StakerID) (hV : el.validators = V) :
    el.newTally.Counts R V f s [] where
  yes := by simpa [voters, newTally, hV] using StakeCounter.counted_newCounter V
  no := by simpa [voters, newTally, hV] using StakeCounter.counted_newCounter V
  all := by simpa [voters, newTally, hV] using StakeCounter.counted_newCounter V
  subject a ha := by simp [newTally] at ha
  subject_isSome x hx := by simp at hx

lemma Election.count_eq {t t' : Election.Tally} {vote : VoteValue} {all : StakeCounter}
    (hget : el.votes[(⟨x.id, s⟩ : VoteID)]? = some vote)
    (hsame : t.subjectHash.filter (fun hash => vote.yes && hash ≠ vote.observedRoot) = none)
    (hside : t.side x.slot.validator vote = .ok t')
    (hall : t'.allVotes.count x.slot.validator = .ok (true, all)) :
    el.count s t x = .ok { t' with allVotes := all } := by
  simp only [count, hget, hsame, hside, hall, Halt.ofFault, bind, Except.bind, pure, Except.pure,
    if_true]

/-- A counted vote is the one of its validator. -/
lemma Election.Tally.Counts.count (hE : R.Electable V f) {t : Election.Tally}
    {done : List RootAndSlot} (h : t.Counts R V f s done) (hx : x.slot.validator ∈ V.members)
    (hvote : el.RightVote R V f x.id s) (hfresh : x.slot.validator ∉ voters V done fun _ => True) :
    ∃ t', el.count s t x = .ok t' ∧ t'.Counts R V f s (done ++ [x]) := by
  obtain ⟨vote, hget, hyes, hcand⟩ := hvote
  obtain ⟨all, hall, hall'⟩ := h.all.count hx
  rw [decide_eq_true hfresh] at hall
  have hsame : t.subjectHash.filter (fun hash => vote.yes && hash ≠ vote.observedRoot) = none := by
    cases hsub : t.subjectHash with
    | none => rfl
    | some a =>
      by_cases hy : vote.yes = true
      · simp [Option.filter, hy, hE.candidate_unique (h.subject a hsub) (hcand hy)]
      · simp [Option.filter, hy]
  have hall'' : all.Counted V (voters V (done ++ [x]) fun _ => True) := by
    rwa [voters_append_pos hx trivial]
  by_cases hy : vote.yes = true
  · have hfor := hyes.mp hy
    obtain ⟨yes, hcount, hcounted⟩ := h.yes.count hx
    have hside : t.side x.slot.validator vote
        = .ok { t with yesVotes := yes, subjectHash := some vote.observedRoot } := by
      rw [side, if_pos hy, hcount]
      rfl
    refine ⟨_, Election.count_eq hget hsame hside hall, ?_, ?_, hall'', ?_, ?_⟩
    · rwa [voters_append_pos hx hfor]
    · rw [voters_append_neg (not_not_intro hfor)]
      exact h.no
    · rintro a ⟨⟩
      exact hcand hy
    · simp
  · have hagainst : ¬ R.VotesFor V f s x.id := mt hyes.mpr hy
    obtain ⟨no, hcount, hcounted⟩ := h.no.count hx
    have hside : t.side x.slot.validator vote = .ok { t with noVotes := no } := by
      rw [side, if_neg hy, hcount]
      rfl
    refine ⟨_, Election.count_eq hget hsame hside hall, ?_, ?_, hall'', h.subject, ?_⟩
    · rw [voters_append_neg hagainst]
      exact h.yes
    · rwa [voters_append_pos hx hagainst]
    · intro y hyd hyf
      rcases List.mem_append.mp hyd with hyd | hyd
      · exact h.subject_isSome y hyd hyf
      · obtain rfl := List.mem_singleton.mp hyd
        exact absurd hyf hagainst

section

variable (hE : R.Electable V f) (hV : el.validators = V) (hr : r ∈ R.roots)
  (hO : R.Observes r observed) (hvotes : ∀ x ∈ observed, el.RightVote R V f x.id s)
include hE hV hr hO hvotes

/-- Counting the votes of the observed roots returns no error. -/
lemma Election.exists_tally :
    ∃ t, observed.foldlM (el.count s) el.newTally = .ok t ∧ t.Counts R V f s observed := by
  refine foldlM_ok _ _ _ (Tally.Counts R V f s) (Tally.counts_nil R f s hV) ?_
  intro done x rest t hsplit h
  have hx : x ∈ observed := by simp [hsplit]
  obtain ⟨b, hb, rfl, hframe, hobs⟩ := (hO.mem_iff x).mp hx
  refine h.count hE (hE.validator_mem b hb) (hvotes _ hx) fun hv => ?_
  -- an earlier root of the same slot would be the same root
  obtain ⟨-, y, hy, hyv, -⟩ := mem_voters.mp hv
  obtain ⟨b', hb', rfl, hframe', hobs'⟩ := (hO.mem_iff y).mp (by simp [hsplit, hy])
  have hslot : R.slot b' = R.slot b := by
    cases hsb : R.slot b
    cases hsb' : R.slot b'
    simp_all [RootGraph.rootAndSlot]
    omega
  have := hE.unique r hr r hr b' hb' b hb hobs' hobs hslot
  have hnodup := hsplit ▸ hO.nodup
  rw [List.nodup_append] at hnodup
  exact hnodup.2.2 _ hy (R.rootAndSlot b) (by simp) (by rw [this])

/-- The vote of a later root is what its majority says. -/
lemma Election.majority_ok (hframe : f + 2 ≤ (R.slot r).frame) :
    ∃ vote, el.majority observed s = .ok vote ∧ (vote.yes = true ↔ R.VotesFor V f s r) ∧
      (vote.yes = true → R.Candidate f s vote.observedRoot) ∧
      (vote.decided = true ↔
        (R.ballots V f).DecidesYes (fun b => s ∈ (R.ballots V f).seen b) r ∨
        (R.ballots V f).DecidesNo (fun b => s ∈ (R.ballots V f).seen b) r) := by
  obtain ⟨t, hrun, ht⟩ := exists_tally hE hV hr hO hvotes
  have htotal : V.total < 2 ^ 64 := hE.total_lt.trans (by decide)
  have hlt : f < (R.slot r).frame := by omega
  have hround : 2 ≤ (R.ballots V f).round r := by
    simp only [RootGraph.ballots]
    omega
  have hcast : r ∈ (R.ballots V f).cast := ⟨hr, by omega⟩
  have hyes := ht.yes
  have hno := ht.no
  have hall := ht.all
  rw [hO.voters_eq hlt] at hyes hno hall
  have hquorum := hE.lawful.quorum_seen r hcast hround
  have hq : t.allVotes.hasQuorum = true := (hall.hasQuorum_iff_weight htotal).mpr hquorum
  have hvote : (t.noVotes.sum ≤ t.yesVotes.sum) ↔ R.VotesFor V f s r := by
    rw [UInt64.le_iff_toNat_le, hno.toNat_sum htotal, hyes.toNat_sum htotal, RootGraph.VotesFor,
      Ballots.vote_iff _ hround]
    rfl
  have hsubject : R.VotesFor V f s r → ∃ a, t.subjectHash = some a := by
    -- a majority of a quorum is not empty
    intro hfor
    rw [RootGraph.VotesFor, Ballots.vote_iff _ hround] at hfor
    have hsplit := hE.lawful.weight_seen hcast (R.VotesFor V f s)
    have hpos := hE.lawful.quorum_pos
    obtain ⟨v, hv⟩ : ((R.ballots V f).supporters r (R.VotesFor V f s)).Nonempty := by
      rw [Finset.nonempty_iff_ne_empty]
      intro hempty
      have hfor' : weight V.stakeOf ((R.ballots V f).supporters r fun b => ¬ R.VotesFor V f s b)
        ≤ weight V.stakeOf ((R.ballots V f).supporters r (R.VotesFor V f s)) := hfor
      simp only [hempty, weight_empty] at hfor' hsplit
      have : (R.ballots V f).wt = V.stakeOf := rfl
      rw [this] at hsplit hquorum
      omega
    rw [← hO.voters_eq hlt] at hv
    obtain ⟨-, x, hx, -, hxf⟩ := mem_voters.mp hv
    exact Option.isSome_iff_exists.mp (ht.subject_isSome x hx hxf)
  refine ⟨{ decided := t.yesVotes.hasQuorum || t.noVotes.hasQuorum
            yes := t.noVotes.sum ≤ t.yesVotes.sum
            observedRoot := if t.noVotes.sum ≤ t.yesVotes.sum then t.subjectHash.getD zeroEvent
              else zeroEvent }, ?_, ?_, ?_, ?_⟩
  · simp [majority, hrun, bind, Except.bind, hq, pure, Except.pure]
  · simpa using hvote
  · intro hy
    have hle : t.noVotes.sum ≤ t.yesVotes.sum := by simpa using hy
    obtain ⟨a, ha⟩ := hsubject (hvote.mp hle)
    simp only [hle, if_true, ha, Option.getD_some]
    exact ht.subject a ha
  · rw [Bool.or_eq_true, hyes.hasQuorum_iff_weight htotal, hno.hasQuorum_iff_weight htotal]
    rfl

end

/-- The first vote is for those whose root is observed. -/
lemma Election.firstVote_spec (hr : r ∈ R.roots) (hframe : (R.slot r).frame = f + 1)
    (hs : s ∈ V.members) (hO : R.Observes r observed) :
    (firstVote observed s).decided = false ∧
      ((firstVote observed s).yes = true ↔ R.VotesFor V f s r) ∧
      ((firstVote observed s).yes = true → R.Candidate f s (firstVote observed s).observedRoot) := by
  have hround : (R.ballots V f).round r ≤ 1 := by
    simp only [RootGraph.ballots]
    omega
  have hseen : R.VotesFor V f s r ↔ ∃ x ∈ observed, x.slot.validator = s := by
    rw [RootGraph.VotesFor, Ballots.vote_of_round_le_one _ hround, Ballots.seen,
      ← hO.voters_eq (by omega), mem_voters]
    simp [hs]
  unfold firstVote
  cases hlast : (observed.filter fun root => root.slot.validator = s).getLast? with
  | none =>
    rw [List.getLast?_eq_none_iff, List.filter_eq_nil_iff] at hlast
    refine ⟨rfl, iff_of_false (by simp) ?_, by simp⟩
    rw [hseen]
    rintro ⟨x, hx, hxs⟩
    exact hlast x hx (by simpa using hxs)
  | some x =>
    obtain ⟨hx, hxs⟩ := List.mem_filter.mp (List.mem_of_getLast? hlast)
    have hxs : x.slot.validator = s := by simpa using hxs
    refine ⟨rfl, iff_of_true rfl (hseen.mpr ⟨x, hx, hxs⟩), fun _ => ?_⟩
    obtain ⟨b, hb, rfl, hbf, hobs⟩ := (hO.mem_iff x).mp hx
    refine ⟨hb, ?_, r, hr, hframe, hobs⟩
    cases hsb : R.slot b
    simp_all [RootGraph.rootAndSlot]

end Subject

/-! ### A new root -/

namespace Election

variable {R : RootGraph} {V : Validators} {f : ℕ} {r : EventID} {s : StakerID}
variable {el el' : Election} {observed : List RootAndSlot} {P : Set EventID}

/-- An election of the frame `f` that has processed the roots of `P`. -/
structure Inv (R : RootGraph) (V : Validators) (f : ℕ) (P : Set EventID) (el : Election) : Prop where
  validators : el.validators = V
  frameToDecide : el.frameToDecide = f
  subset : P ⊆ R.roots
  decided_mem : ∀ s vote, el.decidedRoots[s]? = some vote → s ∈ V.members
  decided_yes : ∀ s vote, el.decidedRoots[s]? = some vote → vote.yes = true →
    R.DecidedYes V f P s ∧ R.Candidate f s vote.observedRoot
  decided_no : ∀ s vote, el.decidedRoots[s]? = some vote → vote.yes = false → R.DecidedNo V f P s
  votes : ∀ r ∈ P, f < (R.slot r).frame → ∀ s ∈ V.members, el.decidedRoots[s]? = none →
    el.RightVote R V f r s
  complete : ∀ s ∈ V.members, R.DecidedYes V f P s ∨ R.DecidedNo V f P s →
    el.decidedRoots[s]? ≠ none

lemma inv_new (R : RootGraph) (V : Validators) (f : ℕ) : (new V f).Inv R V f ∅ where
  validators := rfl
  frameToDecide := rfl
  subset := Set.empty_subset _
  decided_mem s vote h := by simp [new] at h
  decided_yes s vote h := by simp [new] at h
  decided_no s vote h := by simp [new] at h
  votes r hr := absurd hr (Set.notMem_empty r)
  complete s _ h := by rcases h with ⟨r, hr, -⟩ | ⟨r, hr, -⟩ <;> exact absurd hr (Set.notMem_empty r)

def undecided (el : Election) : List StakerID :=
  el.validators.ids.filter fun v => el.decidedRoots[v]?.isNone

lemma mem_undecided (hV : el.validators = V) :
    s ∈ el.undecided ↔ s ∈ V.members ∧ el.decidedRoots[s]? = none := by
  rw [undecided, List.mem_filter, hV, ← Validators.mem_members, Option.isNone_iff_eq_none]

lemma nodup_undecided (el : Election) : el.undecided.Nodup := el.validators.nodup.filter _

lemma notDecidedRoots_eq
    (h : ∀ s vote, el.decidedRoots[s]? = some vote → s ∈ el.validators.members) :
    el.notDecidedRoots = .ok el.undecided := by
  have hkeys : (el.validators.ids.filter fun v => !el.decidedRoots[v]?.isNone).Perm
      el.decidedRoots.keys := by
    rw [List.perm_ext_iff_of_nodup (el.validators.nodup.filter _) ExtTreeMap.nodup_keys]
    intro v
    rw [List.mem_filter, ExtTreeMap.mem_keys, ExtTreeMap.mem_iff_isSome_getElem?]
    cases hv : el.decidedRoots[v]? with
    | none => simp
    | some vote => simpa using Validators.mem_members.mp (h v vote hv)
  have hlen := List.length_eq_length_filter_add (l := el.validators.ids)
    (fun v => el.decidedRoots[v]?.isNone)
  rw [hkeys.length_eq, ExtTreeMap.length_keys, Validators.length_ids] at hlen
  exact if_neg (not_not.mpr hlen.symm)

lemma notDecidedRoots_ok (h : el.Inv R V f P) : el.notDecidedRoots = .ok el.undecided :=
  notDecidedRoots_eq (h.validators ▸ h.decided_mem)

/-- The election `el` after the root `r` has voted on the subjects `done`. -/
structure Casts (r : EventID) (el : Election) (done : List StakerID) (el' : Election) : Prop where
  validators : el'.validators = el.validators
  frameToDecide : el'.frameToDecide = el.frameToDecide
  decided_of_notMem : ∀ s ∉ done, el'.decidedRoots[s]? = el.decidedRoots[s]?
  votes_of_ne : ∀ b s, b ≠ r ∨ s ∉ done →
    el'.votes[(⟨b, s⟩ : VoteID)]? = el.votes[(⟨b, s⟩ : VoteID)]?
  voted : ∀ s ∈ done, (el'.votes[(⟨r, s⟩ : VoteID)]?).isSome

lemma casts_nil (r : EventID) (el : Election) : el.Casts r [] el :=
  ⟨rfl, rfl, fun _ _ => rfl, fun _ _ _ => rfl, by simp⟩

/-- The votes of the root `r` on the subjects `done` are right. -/
structure Voting (R : RootGraph) (V : Validators) (f : ℕ) (r : EventID) (el : Election)
    (done : List StakerID) (el' : Election) : Prop extends el.Casts r done el' where
  rightVote : ∀ s ∈ done, el'.RightVote R V f r s
  decided_yes : ∀ s ∈ done, ∀ vote, el'.decidedRoots[s]? = some vote → vote.yes = true →
    R.DecidedYes V f {r} s ∧ R.Candidate f s vote.observedRoot
  decided_no : ∀ s ∈ done, ∀ vote, el'.decidedRoots[s]? = some vote → vote.yes = false →
    R.DecidedNo V f {r} s
  complete : ∀ s ∈ done, R.DecidedYes V f {r} s ∨ R.DecidedNo V f {r} s →
    el'.decidedRoots[s]? ≠ none

lemma voting_nil (R : RootGraph) (V : Validators) (f : ℕ) (r : EventID) (el : Election) :
    el.Voting R V f r [] el :=
  ⟨casts_nil r el, by simp, by simp, by simp, by simp⟩

lemma votes_save (el : Election) (root : EventID) (subject : StakerID) (vote : VoteValue)
    (b : EventID) (s : StakerID) : (el.save root subject vote).votes[(⟨b, s⟩ : VoteID)]?
      = if b = root ∧ s = subject then some vote else el.votes[(⟨b, s⟩ : VoteID)]? := by
  simp only [save, ExtTreeMap.getElem?_insert, LawfulEqCmp.compare_eq_iff_eq, VoteID.mk.injEq,
    eq_comm (a := root), eq_comm (a := subject)]

lemma decidedRoots_save (el : Election) (root : EventID) (subject : StakerID) (vote : VoteValue)
    (s : StakerID) : (el.save root subject vote).decidedRoots[s]?
      = if vote.decided = true ∧ s = subject then some vote else el.decidedRoots[s]? := by
  simp only [save]
  split_ifs with hd h h
  · simp [h.2]
  · rw [ExtTreeMap.getElem?_insert, if_neg]
    rw [LawfulEqCmp.compare_eq_iff_eq]
    exact fun heq => h ⟨hd, heq.symm⟩
  · exact absurd h.1 hd
  · rfl

lemma Casts.save {done : List StakerID} (h : el.Casts r done el') (s : StakerID)
    (vote : VoteValue) : el.Casts r (done ++ [s]) (el'.save r s vote) where
  validators := h.validators
  frameToDecide := h.frameToDecide
  decided_of_notMem u hu := by
    simp only [List.mem_append, List.mem_singleton, not_or] at hu
    rw [decidedRoots_save, if_neg fun hsave => hu.2 hsave.2, h.decided_of_notMem u hu.1]
  votes_of_ne b u hbu := by
    simp only [List.mem_append, List.mem_singleton, not_or] at hbu
    have hother : ¬ (b = r ∧ u = s) := by
      rintro ⟨rfl, rfl⟩
      rcases hbu with hb | hu
      · exact hb rfl
      · exact hu.2 rfl
    rw [votes_save, if_neg hother, h.votes_of_ne b u (hbu.imp_right And.left)]
  voted u hu := by
    rw [votes_save]
    split_ifs with heq
    · rfl
    · rcases List.mem_append.mp hu with hu | hu
      · exact h.voted u hu
      · exact absurd ⟨rfl, List.mem_singleton.mp hu⟩ heq

lemma Voting.save {done : List StakerID} (h : el.Voting R V f r done el') (hs : s ∉ done)
    (hundecided : el.decidedRoots[s]? = none) {vote : VoteValue}
    (hyes : vote.yes = true ↔ R.VotesFor V f s r)
    (hcand : vote.yes = true → R.Candidate f s vote.observedRoot)
    (hdec : vote.decided = true → (vote.yes = true → R.DecidedYes V f {r} s) ∧
      (vote.yes = false → R.DecidedNo V f {r} s))
    (hcomplete : R.DecidedYes V f {r} s ∨ R.DecidedNo V f {r} s → vote.decided = true) :
    el.Voting R V f r (done ++ [s]) (el'.save r s vote) := by
  have hmem : ∀ u, u ∈ done ++ [s] ↔ u ∈ done ∨ u = s := by simp
  have hne : ∀ u ∈ done, u ≠ s := fun u hu heq => hs (heq ▸ hu)
  have hdecided : ∀ u ∈ done, (el'.save r s vote).decidedRoots[u]? = el'.decidedRoots[u]? := by
    intro u hu
    rw [decidedRoots_save, if_neg fun h => hne u hu h.2]
  have hdecided_s : (el'.save r s vote).decidedRoots[s]?
      = if vote.decided = true then some vote else none := by
    rw [decidedRoots_save, h.decided_of_notMem s hs, hundecided]
    simp
  refine ⟨h.toCasts.save s vote, ?_, ?_, ?_, ?_⟩
  · intro u hu
    rcases (hmem u).mp hu with hu | rfl
    · obtain ⟨v, hv, hv'⟩ := h.rightVote u hu
      exact ⟨v, by rw [votes_save, if_neg fun h => hne u hu h.2, hv], hv'⟩
    · exact ⟨vote, by rw [votes_save, if_pos ⟨rfl, rfl⟩], hyes, hcand⟩
  · intro u hu v hv hvy
    rcases (hmem u).mp hu with hu | rfl
    · exact h.decided_yes u hu v (hdecided u hu ▸ hv) hvy
    · rw [hdecided_s] at hv
      split_ifs at hv with hd
      cases hv
      exact ⟨(hdec hd).1 hvy, hcand hvy⟩
  · intro u hu v hv hvn
    rcases (hmem u).mp hu with hu | rfl
    · exact h.decided_no u hu v (hdecided u hu ▸ hv) hvn
    · rw [hdecided_s] at hv
      split_ifs at hv with hd
      cases hv
      exact (hdec hd).2 hvn
  · intro u hu hd
    rcases (hmem u).mp hu with hu | rfl
    · rw [hdecided u hu]
      exact h.complete u hu hd
    · rw [hdecided_s, if_pos (hcomplete hd)]
      simp

lemma not_decidedYes_singleton (h : (R.slot r).frame < f + 2) : ¬ R.DecidedYes V f {r} s := by
  rintro ⟨_, rfl, -, hframe, -⟩
  omega

lemma not_decidedNo_singleton (h : (R.slot r).frame < f + 2) : ¬ R.DecidedNo V f {r} s := by
  rintro ⟨_, rfl, -, hframe, -⟩
  omega

section

variable (hE : R.Electable V f) (hinv : el.Inv R V f P) (hr : r ∈ R.roots)
  (hframe : f < (R.slot r).frame) (hO : R.Observes r observed) (hP : ∀ x ∈ observed, x.id ∈ P)
include hE hinv hr hframe hO hP

/-- The loop votes right on the next subject. -/
lemma Voting.voteOn {done : List StakerID} (h : el.Voting R V f r done el') (hs : s ∉ done)
    (hmem : s ∈ V.members)
    (hundecided : el.decidedRoots[s]? = none) :
    ∃ el'', voteOn (R.rootAndSlot r) observed el' s = .ok el'' ∧
      el.Voting R V f r (done ++ [s]) el'' := by
  have hf : el'.frameToDecide = f := h.frameToDecide.trans hinv.frameToDecide
  unfold Election.voteOn
  rw [hf]
  split_ifs with hround
  · have hfirst : (R.slot r).frame = f + 1 := by
      have : (R.slot r).frame - f = 1 := hround
      omega
    obtain ⟨hdec, hyes, hcand⟩ := firstVote_spec hr hfirst hmem hO
    refine ⟨_, rfl, h.save hs hundecided hyes hcand (by simp [hdec]) fun hd => ?_⟩
    rcases hd with hd | hd
    · exact absurd hd (not_decidedYes_singleton (by omega))
    · exact absurd hd (not_decidedNo_singleton (by omega))
  · have hlater : f + 2 ≤ (R.slot r).frame := by
      have : ¬ (R.slot r).frame - f = 1 := hround
      omega
    have hvotes : ∀ x ∈ observed, el'.RightVote R V f x.id s := by
      intro x hx
      obtain ⟨b, hb, rfl, hbf, -⟩ := (hO.mem_iff x).mp hx
      obtain ⟨v, hv, hv'⟩ := hinv.votes b (hP _ hx) (by omega) s hmem hundecided
      exact ⟨v, by rw [← hv]; exact h.votes_of_ne b s (Or.inr hs), hv'⟩
    obtain ⟨vote, hmaj, hyes, hcand, hdec⟩ :=
      majority_ok hE (h.validators.trans hinv.validators) hr hO hvotes hlater
    refine ⟨_, by rw [hmaj]; rfl, h.save hs hundecided hyes hcand (fun hd => ?_) fun hd => ?_⟩
    · have hcast : r ∈ (R.ballots V f).cast := ⟨hr, by omega⟩
      have hround₂ : 2 ≤ (R.ballots V f).round r := by
        simp only [RootGraph.ballots]
        omega
      -- the side that has the quorum has the majority
      refine ⟨fun hy => ⟨r, rfl, hr, hlater, ?_⟩, fun hn => ⟨r, rfl, hr, hlater, ?_⟩⟩
      · refine (hdec.mp hd).resolve_right fun hno => ?_
        exact hE.lawful.not_vote_of_decidesNo _ hcast hcast hround₂ rfl hno (hyes.mp hy)
      · refine (hdec.mp hd).resolve_left fun hyes' => ?_
        rw [hyes.mpr (hE.lawful.vote_of_decidesYes _ hcast hcast hround₂ rfl hyes')] at hn
        cases hn
    · rw [hdec]
      rcases hd with ⟨_, rfl, -, -, hd⟩ | ⟨_, rfl, -, -, hd⟩
      · exact Or.inl hd
      · exact Or.inr hd

lemma exists_voting :
    ∃ el', el.undecided.foldlM (voteOn (R.rootAndSlot r) observed) el = .ok el' ∧
      el.Voting R V f r el.undecided el' := by
  refine foldlM_ok _ _ _ (fun done el' => el.Voting R V f r done el') (voting_nil R V f r el) ?_
  intro done s rest el' hsplit h
  have hmem : s ∈ el.undecided := by simp [hsplit]
  have hnodup := hsplit ▸ el.nodup_undecided
  rw [List.nodup_append] at hnodup
  obtain ⟨hs, hundecided⟩ := (mem_undecided hinv.validators).mp hmem
  exact h.voteOn hE hinv hr hframe hO hP (fun hd => hnodup.2.2 s hd s (by simp) rfl) hs hundecided

end

lemma decidedYes_insert : R.DecidedYes V f (insert r P) s ↔
    R.DecidedYes V f {r} s ∨ R.DecidedYes V f P s := by
  simp only [RootGraph.DecidedYes, Set.mem_insert_iff, Set.mem_singleton_iff, or_and_right,
    exists_or, exists_eq_left]

lemma decidedNo_insert : R.DecidedNo V f (insert r P) s ↔
    R.DecidedNo V f {r} s ∨ R.DecidedNo V f P s := by
  simp only [RootGraph.DecidedNo, Set.mem_insert_iff, Set.mem_singleton_iff, or_and_right,
    exists_or, exists_eq_left]

lemma Voting.inv (hinv : el.Inv R V f P) (hr : r ∈ R.roots)
    (h : el.Voting R V f r el.undecided el') : el'.Inv R V f (insert r P) := by
  have hdone : ∀ s ∉ el.undecided, s ∈ V.members → el.decidedRoots[s]? ≠ none :=
    fun s hs hmem hnone => hs ((mem_undecided hinv.validators).mpr ⟨hmem, hnone⟩)
  refine ⟨h.validators.trans hinv.validators, h.frameToDecide.trans hinv.frameToDecide,
    Set.insert_subset hr hinv.subset, ?_, ?_, ?_, ?_, ?_⟩
  · intro s vote hv
    by_cases hs : s ∈ el.undecided
    · exact ((mem_undecided hinv.validators).mp hs).1
    · exact hinv.decided_mem s vote (h.decided_of_notMem s hs ▸ hv)
  · intro s vote hv hy
    rw [decidedYes_insert]
    by_cases hs : s ∈ el.undecided
    · exact (h.decided_yes s hs vote hv hy).imp_left Or.inl
    · exact (hinv.decided_yes s vote (h.decided_of_notMem s hs ▸ hv) hy).imp_left Or.inr
  · intro s vote hv hn
    rw [decidedNo_insert]
    by_cases hs : s ∈ el.undecided
    · exact Or.inl (h.decided_no s hs vote hv hn)
    · exact Or.inr (hinv.decided_no s vote (h.decided_of_notMem s hs ▸ hv) hn)
  · intro b hb hbf s hmem hnone
    by_cases hs : s ∈ el.undecided
    · by_cases hbr : b = r
      · exact hbr ▸ h.rightVote s hs
      · obtain ⟨v, hv, hv'⟩ := hinv.votes b (hb.resolve_left hbr) hbf s hmem
          ((mem_undecided hinv.validators).mp hs).2
        exact ⟨v, by rw [h.votes_of_ne b s (Or.inl hbr), hv], hv'⟩
    · exact absurd (h.decided_of_notMem s hs ▸ hnone) (hdone s hs hmem)
  · intro s hmem hd
    by_cases hs : s ∈ el.undecided
    · refine h.complete s hs ?_
      have hold : ¬ (R.DecidedYes V f P s ∨ R.DecidedNo V f P s) :=
        fun hd => hinv.complete s hmem hd ((mem_undecided hinv.validators).mp hs).2
      rw [decidedYes_insert, decidedNo_insert] at hd
      tauto
    · rw [h.decided_of_notMem s hs]
      exact hdone s hs hmem

/-! ### The outcome -/

/-- The result an election over the roots of `P` has to have. -/
def Outcome (R : RootGraph) (V : Validators) (f : ℕ) (P : Set EventID) (res : Option Res) : Prop :=
  (∃ a, res = some ⟨f, a⟩ ∧ R.Elected V f P a) ∨ (res = none ∧ ∀ a, ¬ R.Elected V f P a)

lemma Outcome.elected {res : Res} (h : Outcome R V f P (some res)) :
    res.frame = f ∧ R.Elected V f P res.atropos := by
  rcases h with ⟨a, heq, ha⟩ | ⟨heq, -⟩
  · cases heq
    exact ⟨rfl, ha⟩
  · cases heq

/-- Outcomes never disagree. -/
lemma Outcome.unique (hE : R.Electable V f) {P' : Set EventID} {res res' : Res}
    (h : Outcome R V f P (some res)) (h' : Outcome R V f P' (some res')) : res = res' :=
  Res.ext (h.elected.1.trans h'.elected.1.symm) (hE.elected_unique h.elected.2 h'.elected.2)

lemma Outcome.of_elected (hE : R.Electable V f) {P' : Set EventID} {res : Res} {res' : Option Res}
    (h : Outcome R V f P (some res)) (hP : P ⊆ P') (h' : Outcome R V f P' res') :
    res' = some res := by
  cases res' with
  | some res' => rw [h'.unique hE h]
  | none =>
    rcases h' with ⟨a, heq, -⟩ | ⟨-, hno⟩
    · cases heq
    · exact absurd (h.elected.2.mono hP) (hno _)

/-- The atropos is the first validator that is not decided with no. -/
lemma chooseAmong_spec (hE : R.Electable V f) (h : el.Inv R V f P) {l l' : List StakerID}
    (hids : V.ids = l ++ l') (hno : ∀ u ∈ l, R.DecidedNo V f P u) :
    (∃ res, el.chooseAmong l' = .ok res ∧ Outcome R V f P res) ∨
      ∀ u ∈ V.members, R.DecidedNo V f P u := by
  induction l' generalizing l with
  | nil =>
    refine Or.inr fun u hu => hno u ?_
    simpa [hids] using Validators.mem_members.mp hu
  | cons v l' ih =>
    have hv : v ∈ V.members := Validators.mem_members.mpr (by simp [hids])
    rw [chooseAmong]
    cases hdec : el.decidedRoots[v]? with
    | none =>
      refine Or.inl ⟨none, rfl, Or.inr ⟨rfl, ?_⟩⟩
      rintro a ⟨l₁, s, l₁', hids', hno', hyes, -⟩
      have hcomplete := mt (h.complete v hv) (not_not_intro hdec)
      -- the elected validator can be neither before, at nor after the first undecided one
      rcases List.append_eq_append_iff.mp (hids.symm.trans hids') with ⟨m, rfl, hm⟩ | ⟨m, rfl, hm⟩
      · cases m with
        | nil =>
          obtain rfl : v = s := (List.cons.inj hm).1
          exact hcomplete (Or.inl hyes)
        | cons u m =>
          obtain rfl : v = u := (List.cons.inj hm).1
          exact hcomplete (Or.inr (hno' v (by simp)))
      · cases m with
        | nil =>
          obtain rfl : s = v := (List.cons.inj hm).1
          exact hcomplete (Or.inl hyes)
        | cons u m =>
          obtain rfl : s = u := (List.cons.inj hm).1
          exact hE.not_decided_both hyes (hno s (by simp))
    | some vote =>
      dsimp only
      split_ifs with hy
      · obtain ⟨hyes, hcand⟩ := h.decided_yes v vote hdec hy
        rw [h.frameToDecide]
        exact Or.inl ⟨_, rfl, Or.inl ⟨_, rfl, l, v, l', hids, hno, hyes, hcand⟩⟩
      · have hv' := h.decided_no v vote hdec (by simpa using hy)
        refine ih (l := l ++ [v]) (by simp [hids]) fun u hu => ?_
        rcases List.mem_append.mp hu with hu | hu
        · exact hno u hu
        · obtain rfl := List.mem_singleton.mp hu
          exact hv'

/-- The choice is the outcome of the processed roots. -/
lemma chooseAtropos_ok (hE : R.Electable V f) (h : el.Inv R V f P) (hne : V.members.Nonempty) :
    ∃ res, el.chooseAtropos = .ok res ∧ Outcome R V f P res := by
  rw [chooseAtropos, h.validators]
  refine (chooseAmong_spec hE h (l := []) rfl (by simp)).resolve_right fun hno => ?_
  obtain ⟨s, hs, hnot⟩ := hE.exists_not_decidedNo hne
  exact hnot P (hno s hs)

/-- An election to which the roots of `P` were given: those that came after it was decided are not
looked at. -/
def Given (R : RootGraph) (V : Validators) (f : ℕ) (P : Set EventID) (el : Election) : Prop :=
  ∃ P' ⊆ P, el.Inv R V f P' ∧ ((∀ a, ¬ R.Elected V f P' a) → P' = P)

lemma given_new (R : RootGraph) (V : Validators) (f : ℕ) : (new V f).Given R V f ∅ :=
  ⟨∅, subset_rfl, inv_new R V f, fun _ => rfl⟩

lemma Inv.given (h : el.Inv R V f P) : el.Given R V f P := ⟨P, subset_rfl, h, fun _ => rfl⟩

lemma Given.chooseAtropos (hE : R.Electable V f) (h : el.Given R V f P) (hne : V.members.Nonempty) :
    ∃ res, el.chooseAtropos = .ok res ∧ Outcome R V f P res := by
  obtain ⟨P', hP', hinv, heq⟩ := h
  obtain ⟨res, hres, hout⟩ := chooseAtropos_ok hE hinv hne
  refine ⟨res, hres, ?_⟩
  rcases hout with ⟨a, rfl, ha⟩ | ⟨rfl, hno⟩
  · exact Or.inl ⟨a, rfl, ha.mono hP'⟩
  · exact Or.inr ⟨rfl, heq hno ▸ hno⟩

/-- Processing a root whose observed roots were given before: no error, no fault, and the result is
the outcome. -/
theorem processRoot_ok (hE : R.Electable V f) (h : el.Given R V f P) (hr : r ∈ R.roots)
    (hO : f < (R.slot r).frame → R.Observes r observed ∧ ∀ x ∈ observed, x.id ∈ P) :
    ∃ res el', el.processRoot (R.rootAndSlot r) observed = .ok (res, el') ∧
      el'.Given R V f (insert r P) ∧ Outcome R V f (insert r P) res := by
  have hne : V.members.Nonempty := ⟨_, hE.validator_mem r hr⟩
  have hsub : P ⊆ insert r P := Set.subset_insert _ _
  obtain ⟨P', hP', hinv, heq⟩ := h
  obtain ⟨res, hres, hout⟩ := chooseAtropos_ok hE hinv hne
  rcases hout with ⟨a, rfl, ha⟩ | ⟨rfl, hno⟩
  · refine ⟨some ⟨f, a⟩, el, ?_, ⟨P', hP'.trans hsub, hinv, fun hno => absurd ha (hno a)⟩,
      Or.inl ⟨a, rfl, ha.mono (hP'.trans hsub)⟩⟩
    simp only [processRoot, hres, bind, Except.bind]
    rfl
  · obtain rfl : P' = P := heq hno
    by_cases hframe : (R.slot r).frame ≤ f
    · -- a root of the frame to decide or an older one
      have hyes : ∀ s, R.DecidedYes V f (insert r P') s ↔ R.DecidedYes V f P' s := fun s =>
        decidedYes_insert.trans (or_iff_right (not_decidedYes_singleton (by omega)))
      have hnos : ∀ s, R.DecidedNo V f (insert r P') s ↔ R.DecidedNo V f P' s := fun s =>
        decidedNo_insert.trans (or_iff_right (not_decidedNo_singleton (by omega)))
      refine ⟨none, el, ?_, Inv.given ?_, Or.inr ⟨rfl, ?_⟩⟩
      · simp only [processRoot, hres, bind, Except.bind, hinv.frameToDecide, RootGraph.rootAndSlot,
          hframe, if_true]
        rfl
      · refine ⟨hinv.validators, hinv.frameToDecide, Set.insert_subset hr hinv.subset,
          hinv.decided_mem, ?_, ?_, ?_, ?_⟩
        · simpa only [hyes] using hinv.decided_yes
        · simpa only [hnos] using hinv.decided_no
        · rintro b (rfl | hb) hbf
          · omega
          · exact hinv.votes b hb hbf
        · simpa only [hyes, hnos] using hinv.complete
      · simpa only [RootGraph.Elected, hyes, hnos] using hno
    · obtain ⟨hO, hP⟩ := hO (by omega)
      obtain ⟨el', hrun, hvoting⟩ := exists_voting hE hinv hr (by omega) hO hP
      have hinv' := hvoting.inv hinv hr
      obtain ⟨res, hres', hout⟩ := chooseAtropos_ok hE hinv' hne
      refine ⟨res, el', ?_, hinv'.given, hout⟩
      simp only [processRoot, hres, bind, Except.bind, hinv.frameToDecide, RootGraph.rootAndSlot,
        hframe, if_false, notDecidedRoots_ok hinv] at hrun ⊢
      simp only [hrun, hres']
      rfl

end Election

end Lachesis
