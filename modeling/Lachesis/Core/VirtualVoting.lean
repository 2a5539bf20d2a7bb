import Lachesis.Core.Quorum

/-!
# Virtual voting by weighted majorities

Ballots are cast in rounds. A ballot of round `1` votes by what it sees of the candidates of round
`0`; a ballot of a later round votes with the majority, by weight, of the ballots it sees in the
round before, and decides when one side reaches a quorum. Nobody sends a vote: every vote is a
function of who sees whom.

If no two ballots of one voter and round are both seen, and every ballot from round `2` on sees a
quorum of the round before, then a decision taken anywhere is the vote of every ballot from that
round on, so all decisions agree. If the ballots of round `1` see a quorum of candidates too, some
candidate is voted for by every ballot from round `2` on.
-/

namespace Lachesis.Core

open Classical

variable {ρ α : Type*}

/-- Who votes, with what weight, and which ballot sees which. -/
structure Ballots (ρ α : Type*) where
  /-- The ballots that exist. -/
  cast : Set ρ
  voters : Finset α
  wt : α → ℕ
  quorum : ℕ
  round : ρ → ℕ
  owner : ρ → α
  sees : ρ → ρ → Prop

namespace Ballots

variable (B : Ballots ρ α)

/-- The voters whose ballot of the previous round is seen by `r` and satisfies `P`. -/
noncomputable def supporters (r : ρ) (P : ρ → Prop) : Finset α :=
  B.voters.filter fun v => ∃ b ∈ B.cast, B.round b + 1 = B.round r ∧ B.owner b = v ∧ B.sees r b ∧ P b

/-- The voters whose ballot of the previous round is seen by `r`. -/
noncomputable def seen (r : ρ) : Finset α := B.supporters r fun _ => True

/-- The vote of a ballot of round `k + 1`, given the votes `init` of round `1`. -/
def voteAt (init : ρ → Prop) : ℕ → ρ → Prop
  | 0, r => init r
  | k + 1, r =>
    weight B.wt (B.supporters r fun b => ¬ voteAt init k b)
      ≤ weight B.wt (B.supporters r (voteAt init k))

/-- The vote of a ballot. -/
def vote (init : ρ → Prop) (r : ρ) : Prop := B.voteAt init (B.round r - 1) r

/-- The ballot sees a quorum for. -/
def DecidesYes (init : ρ → Prop) (r : ρ) : Prop :=
  B.quorum ≤ weight B.wt (B.supporters r (B.vote init))

/-- The ballot sees a quorum against. -/
def DecidesNo (init : ρ → Prop) (r : ρ) : Prop :=
  B.quorum ≤ weight B.wt (B.supporters r fun b => ¬ B.vote init b)

/-- What the argument needs of the ballots. -/
structure Lawful : Prop where
  /-- Of two ballots of one voter and round, at most one is ever seen. -/
  unique : ∀ r ∈ B.cast, ∀ r' ∈ B.cast, ∀ b ∈ B.cast, ∀ b' ∈ B.cast, B.sees r b → B.sees r' b' →
    B.round b = B.round b' → B.owner b = B.owner b' → b = b'
  quorum_seen : ∀ r ∈ B.cast, 2 ≤ B.round r → B.quorum ≤ weight B.wt (B.seen r)
  supermajority : 2 * weight B.wt B.voters < 3 * B.quorum

variable {B}

variable {r : ρ}

lemma mem_supporters {P : ρ → Prop} {v : α} :
    v ∈ B.supporters r P ↔ v ∈ B.voters ∧
      ∃ b ∈ B.cast, B.round b + 1 = B.round r ∧ B.owner b = v ∧ B.sees r b ∧ P b := by
  simp [supporters]

lemma supporters_subset (r : ρ) (P : ρ → Prop) : B.supporters r P ⊆ B.voters :=
  Finset.filter_subset _ _

lemma exists_of_weight_supporters_pos {P : ρ → Prop} (h : 0 < weight B.wt (B.supporters r P)) :
    ∃ b ∈ B.cast, B.round b + 1 = B.round r ∧ B.sees r b ∧ P b := by
  have hne : (B.supporters r P).Nonempty := by
    by_contra hempty
    rw [Finset.not_nonempty_iff_eq_empty.mp hempty, weight_empty] at h
    exact lt_irrefl 0 h
  obtain ⟨v, hv⟩ := hne
  obtain ⟨-, b, hb, hbr, -, hs, hP⟩ := mem_supporters.mp hv
  exact ⟨b, hb, hbr, hs, hP⟩

lemma supporters_congr {r : ρ} {P Q : ρ → Prop}
    (h : ∀ b ∈ B.cast, B.round b + 1 = B.round r → (P b ↔ Q b)) :
    B.supporters r P = B.supporters r Q := by
  ext v
  simp only [mem_supporters]
  refine and_congr_right fun _ => exists_congr fun b => and_congr_right fun hb =>
    and_congr_right fun hr => ?_
  rw [h b hb hr]

lemma vote_of_round_le_one (init : ρ → Prop) (h : B.round r ≤ 1) : B.vote init r ↔ init r := by
  have : B.round r - 1 = 0 := by omega
  simp [vote, this, voteAt]

lemma vote_iff (init : ρ → Prop) (h : 2 ≤ B.round r) :
    B.vote init r ↔ weight B.wt (B.supporters r fun b => ¬ B.vote init b)
      ≤ weight B.wt (B.supporters r (B.vote init)) := by
  obtain ⟨k, hk⟩ : ∃ k, B.round r = k + 2 := ⟨B.round r - 2, by omega⟩
  have hpred : ∀ b ∈ B.cast, B.round b + 1 = B.round r →
      (B.voteAt init k b ↔ B.vote init b) := by
    intro b _ hb
    have : B.round b - 1 = k := by omega
    simp [vote, this]
  have hr : B.round r - 1 = k + 1 := by omega
  rw [vote, hr, voteAt, supporters_congr hpred,
    supporters_congr fun b hb hbr => not_congr (hpred b hb hbr)]

section Lawful

variable (hB : B.Lawful)
include hB

lemma Lawful.quorum_pos : 0 < B.quorum := by
  have := hB.supermajority
  omega

variable {r' : ρ}

lemma Lawful.disjoint_supporters (hr : r ∈ B.cast) (hr' : r' ∈ B.cast)
    (hround : B.round r = B.round r') (P : ρ → Prop) :
    Disjoint (B.supporters r P) (B.supporters r' fun b => ¬ P b) := by
  rw [Finset.disjoint_left]
  intro v hv hv'
  obtain ⟨-, b, hb, hbr, hbv, hs, hP⟩ := mem_supporters.mp hv
  obtain ⟨-, b', hb', hbr', hbv', hs', hP'⟩ := mem_supporters.mp hv'
  have : b = b' := hB.unique r hr r' hr' b hb b' hb' hs hs' (by omega) (hbv.trans hbv'.symm)
  exact hP' (this ▸ hP)

lemma Lawful.weight_seen (hr : r ∈ B.cast) (P : ρ → Prop) :
    weight B.wt (B.seen r)
      = weight B.wt (B.supporters r P) + weight B.wt (B.supporters r fun b => ¬ P b) := by
  rw [← weight_union_of_disjoint _ (hB.disjoint_supporters hr hr rfl P)]
  congr 1
  ext v
  simp only [seen, mem_supporters, Finset.mem_union]
  constructor
  · rintro ⟨hv, b, hb, hbr, hbv, hs, -⟩
    by_cases hP : P b
    · exact Or.inl ⟨hv, b, hb, hbr, hbv, hs, hP⟩
    · exact Or.inr ⟨hv, b, hb, hbr, hbv, hs, hP⟩
  · rintro (⟨hv, b, hb, hbr, hbv, hs, -⟩ | ⟨hv, b, hb, hbr, hbv, hs, -⟩) <;>
      exact ⟨hv, b, hb, hbr, hbv, hs, trivial⟩

/-- A vote for goes back to a ballot of round `1` that votes for, below the ballot. -/
lemma Lawful.exists_init_of_vote {init : ρ → Prop} {P : Set ρ}
    (hP : ∀ r ∈ P, ∀ b ∈ B.cast, B.sees r b → B.round b + 1 = B.round r → b ∈ P) {k : ℕ}
    (hrP : r ∈ P) (hr : r ∈ B.cast) (hround : B.round r = k + 1) (hvote : B.vote init r) :
    ∃ b ∈ P, b ∈ B.cast ∧ B.round b = 1 ∧ init b := by
  induction k generalizing r with
  | zero => exact ⟨r, hrP, hr, hround, (vote_of_round_le_one init (by omega)).mp hvote⟩
  | succ k ih =>
    have hseen := hB.quorum_seen r hr (by omega)
    have hq := hB.quorum_pos
    rw [hB.weight_seen hr (B.vote init)] at hseen
    rw [vote_iff init (by omega)] at hvote
    obtain ⟨b, hb, hbr, hs, hbvote⟩ :=
      exists_of_weight_supporters_pos (B := B) (r := r) (P := B.vote init) (by omega)
    exact ih (hP r hrP b hb hs hbr) hb (by omega) hbvote

lemma Lawful.weight_lt_of_quorum (hr : r ∈ B.cast) (hround : 2 ≤ B.round r) (P : ρ → Prop)
    {u : Finset α} (hu : u ⊆ B.voters) (hq : B.quorum ≤ weight B.wt u)
    (hd : Disjoint (B.supporters r fun b => ¬ P b) u) :
    weight B.wt (B.supporters r fun b => ¬ P b) < weight B.wt (B.supporters r P) := by
  refine weight_lt_of_disjoint_quorum hB.supermajority (supporters_subset _ _) hu ?_ hq hd
  rw [← hB.weight_seen hr P]
  exact hB.quorum_seen r hr hround

variable (init : ρ → Prop)

lemma Lawful.vote_of_decidesYes (hr : r ∈ B.cast) (hr' : r' ∈ B.cast) (hround : 2 ≤ B.round r)
    (heq : B.round r = B.round r') (h : B.DecidesYes init r) :
    B.vote init r' := by
  rw [vote_iff init (by omega)]
  exact (hB.weight_lt_of_quorum hr' (by omega) _ (supporters_subset _ _) h
    (hB.disjoint_supporters hr hr' heq _).symm).le

lemma Lawful.not_vote_of_decidesNo (hr : r ∈ B.cast) (hr' : r' ∈ B.cast) (hround : 2 ≤ B.round r)
    (heq : B.round r = B.round r') (h : B.DecidesNo init r) :
    ¬ B.vote init r' := by
  rw [vote_iff init (by omega), not_le]
  have hd := hB.disjoint_supporters hr' hr heq.symm (B.vote init)
  have := hB.weight_lt_of_quorum hr' (by omega) (fun b => ¬ B.vote init b)
    (supporters_subset _ _) h (by simpa only [not_not] using hd)
  simpa only [not_not] using this

/-- A unanimous round leaves the next one no choice, whichever side it is on. -/
lemma Lawful.unanimous_step {k : ℕ} (hk : 1 ≤ k) {P : Prop}
    (h : ∀ b ∈ B.cast, B.round b = k → (B.vote init b ↔ P)) :
    ∀ r ∈ B.cast, B.round r = k + 1 → (B.vote init r ↔ P) := by
  intro r hr hround
  have hseen : 0 < weight B.wt (B.seen r) :=
    lt_of_lt_of_le hB.quorum_pos (hB.quorum_seen r hr (by omega))
  rw [hB.weight_seen hr (B.vote init)] at hseen
  have hall : ∀ b ∈ B.cast, B.round b + 1 = B.round r → (B.vote init b ↔ P) :=
    fun b hb hbr => h b hb (by omega)
  rw [vote_iff init (by omega)]
  rw [supporters_congr hall, supporters_congr fun b hb hbr => not_congr (hall b hb hbr)] at *
  by_cases hP : P
  · have hno : B.supporters r (fun _ => ¬ P) = ∅ := by
      ext v; simp [mem_supporters, hP]
    rw [hno]
    simp [hP]
  · have hyes : B.supporters r (fun _ => P) = ∅ := by
      ext v; simp [mem_supporters, hP]
    rw [hyes] at hseen ⊢
    simp only [weight_empty, hP, iff_false, not_le] at hseen ⊢
    omega

/-- Unanimity lasts. -/
lemma Lawful.unanimous {k : ℕ} (hk : 1 ≤ k) {P : Prop}
    (h : ∀ b ∈ B.cast, B.round b = k → (B.vote init b ↔ P)) :
    ∀ r ∈ B.cast, k ≤ B.round r → (B.vote init r ↔ P) := by
  intro r hr hround
  obtain ⟨d, hd⟩ := Nat.exists_eq_add_of_le hround
  induction d generalizing r with
  | zero => exact h r hr (by omega)
  | succ d ih =>
    exact hB.unanimous_step init (k := k + d) (by omega)
      (fun b hb hbr => ih b hb (by omega) (by omega)) r hr (by omega)

section

variable (hr : r ∈ B.cast) (hr' : r' ∈ B.cast) (hround : 2 ≤ B.round r)
include hr hr' hround

/-- A decision for is the vote of every ballot from its round on. -/
theorem Lawful.vote_of_decidesYes_of_le (hle : B.round r ≤ B.round r') (h : B.DecidesYes init r) :
    B.vote init r' :=
  (hB.unanimous init (k := B.round r) (P := True) (by omega)
    (fun _ hb hbr => iff_true_intro (hB.vote_of_decidesYes init hr hb hround hbr.symm h))
    r' hr' hle).mpr trivial

/-- A decision against is the vote of every ballot from its round on. -/
theorem Lawful.not_vote_of_decidesNo_of_le (hle : B.round r ≤ B.round r') (h : B.DecidesNo init r) :
    ¬ B.vote init r' :=
  (hB.unanimous init (k := B.round r) (P := False) (by omega)
    (fun _ hb hbr => iff_false_intro (hB.not_vote_of_decidesNo init hr hb hround hbr.symm h))
    r' hr' hle).mp

/-- Agreement: one ballot never decides for what another decides against. -/
theorem Lawful.not_decidesYes_and_decidesNo (hround' : 2 ≤ B.round r') (hyes : B.DecidesYes init r)
    (hno : B.DecidesNo init r') : False := by
  rcases le_total (B.round r) (B.round r') with hle | hle
  · exact hB.not_vote_of_decidesNo init hr' hr' hround' rfl hno
      (hB.vote_of_decidesYes_of_le init hr hr' hround hle hyes)
  · exact hB.not_vote_of_decidesNo_of_le init hr' hr hround' hle hno
      (hB.vote_of_decidesYes init hr hr hround rfl hyes)

end

/-- If round `1` sees quorums too, some candidate is voted for by every ballot from round `2` on:
the candidates each seen ballot of round `1` leaves out weigh less than a third, so some candidate
is left out by less than a third of them. -/
theorem Lawful.exists_candidate (hne : B.voters.Nonempty)
    (hq : ∀ r ∈ B.cast, B.round r = 1 → B.quorum ≤ weight B.wt (B.seen r)) :
    ∃ s ∈ B.voters, ∀ r ∈ B.cast, 2 ≤ B.round r → B.vote (fun b => s ∈ B.seen b) r := by
  by_cases hsome : ∃ r ∈ B.cast, 2 ≤ B.round r
  swap
  · obtain ⟨s, hs⟩ := hne
    exact ⟨s, hs, fun r hr hr2 => absurd ⟨r, hr, hr2⟩ hsome⟩
  obtain ⟨r₀, hr₀, hr₀2⟩ := hsome
  have hqV : B.quorum ≤ weight B.wt B.voters :=
    (hB.quorum_seen r₀ hr₀ hr₀2).trans (weight_mono _ (supporters_subset _ _))
  -- the owners of seen ballots of round `1`, and the ballot of each
  let O := B.voters.filter fun v =>
    ∃ b ∈ B.cast, B.round b = 1 ∧ B.owner b = v ∧ ∃ r ∈ B.cast, B.sees r b
  have hO : ∀ v, ∃ b, v ∈ O → b ∈ B.cast ∧ B.round b = 1 ∧ B.owner b = v ∧
      ∃ r ∈ B.cast, B.sees r b := by
    intro v
    by_cases hv : v ∈ O
    · obtain ⟨-, b, hb, h⟩ := Finset.mem_filter.mp hv
      exact ⟨b, fun _ => ⟨hb, h⟩⟩
    · exact ⟨r₀, fun h => absurd h hv⟩
  choose β hβ using hO
  have hleft : ∀ o ∈ O, weight B.wt (B.voters.filter fun s => ¬ s ∈ B.seen (β o))
      ≤ weight B.wt B.voters - B.quorum := by
    intro o ho
    have hseen := hq _ (hβ o ho).1 (hβ o ho).2.1
    have hdis : Disjoint (B.seen (β o)) (B.voters.filter fun s => ¬ s ∈ B.seen (β o)) := by
      rw [Finset.disjoint_left]
      intro s hs hs'
      exact (Finset.mem_filter.mp hs').2 hs
    have := weight_add_le_of_disjoint (w := B.wt) (supporters_subset _ _)
      (Finset.filter_subset _ B.voters) hdis
    unfold seen at hseen
    omega
  obtain ⟨s, hs, hsle⟩ := exists_weight_leftOut_le (w := B.wt) (Finset.filter_subset _ B.voters)
    (lt_of_lt_of_le hB.quorum_pos hqV) (fun o s => s ∈ B.seen (β o)) hleft
  refine ⟨s, hs, ?_⟩
  have h2 : ∀ r ∈ B.cast, B.round r = 2 → (B.vote (fun b => s ∈ B.seen b) r ↔ True) := by
    intro r hr hr2
    rw [iff_true, vote_iff _ (by omega)]
    have hsub : B.supporters r (fun b => ¬ B.vote (fun b => s ∈ B.seen b) b)
        ⊆ O.filter fun o => ¬ s ∈ B.seen (β o) := by
      intro v hv
      obtain ⟨hvV, b, hb, hbr, hbv, hsb, hnot⟩ := mem_supporters.mp hv
      have hvO : v ∈ O := Finset.mem_filter.mpr ⟨hvV, b, hb, by omega, hbv, r, hr, hsb⟩
      obtain ⟨hβc, hβr, hβv, r', hr', hβs⟩ := hβ v hvO
      have hbβ : b = β v :=
        hB.unique r hr r' hr' b hb _ hβc hsb hβs (by omega) (hbv.trans hβv.symm)
      rw [vote_of_round_le_one _ (by omega), hbβ] at hnot
      exact Finset.mem_filter.mpr ⟨hvO, hnot⟩
    have hno := (weight_mono B.wt hsub).trans hsle
    have hsplit := hB.weight_seen hr (B.vote fun b => s ∈ B.seen b)
    have hseen := hB.quorum_seen r hr (by omega)
    have h3 := hB.supermajority
    omega
  intro r hr hr2
  exact (hB.unanimous _ (by omega) h2 r hr hr2).mpr trivial

end Lawful

end Ballots

end Lachesis.Core
