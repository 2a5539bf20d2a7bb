import Mathlib.Algebra.GroupWithZero.Nat
import Mathlib.Algebra.Order.BigOperators.Group.List
import Mathlib.Algebra.Order.Group.Nat

/-!
# A caller and its workers

A caller goes through a list of operations on workers, one worker for each key. It posts to the box
of a worker, which has room for one message, or waits until the worker hands over its result. A
worker takes one message, works, hands over and is done; it never looks at its box again.

All interleavings are finite. None of them gets stuck if no worker is posted to more than twice and
each wait follows a post; a worker that is posted to three times stops the caller.
-/

namespace Lachesis.Core

open Relation

/-! ### Runs that end -/

section Ends

variable {σ τ : Type*} {step : σ → σ → Prop} {P : σ → Prop}

/-- Every run from `s` is finite, and `P` holds where it ends. -/
def Ends (step : σ → σ → Prop) (P : σ → Prop) (s : σ) : Prop :=
  Acc (fun t s => step s t) s ∧ ∀ t, ReflTransGen step s t → (∀ u, ¬ step t u) → P t

lemma Ends.imp {Q : σ → Prop} {s : σ} (h : Ends step P s) (hPQ : ∀ t, P t → Q t) : Ends step Q s :=
  ⟨h.1, fun t hst hend => hPQ t (h.2 t hst hend)⟩

/-- There is a run that cannot be continued. -/
lemma Ends.exists_end {s : σ} (h : Ends step P s) :
    ∃ t, ReflTransGen step s t ∧ (∀ u, ¬ step t u) ∧ P t := by
  suffices ∃ t, ReflTransGen step s t ∧ ∀ u, ¬ step t u by
    obtain ⟨t, hst, hend⟩ := this
    exact ⟨t, hst, hend, h.2 t hst hend⟩
  induction h.1 with
  | intro s _ ih =>
    by_cases hend : ∀ t, ¬ step s t
    · exact ⟨s, .refl, hend⟩
    · push Not at hend
      obtain ⟨t, hst⟩ := hend
      have ht : Ends step P t := ⟨h.1.inv hst, fun u htu => h.2 u (.head hst htu)⟩
      obtain ⟨u, htu, hu⟩ := ih t hst ht
      exact ⟨u, .head hst htu, hu⟩

/-- A system ends if its steps are steps of a system that ends, up to silent ones that lower a
rank. -/
lemma Ends.of_simulation {step' : τ → τ → Prop} {R : σ → τ → Prop} (rank : σ → ℕ)
    (hstep : ∀ {s t a}, R s a → step s t → (∃ b, step' a b ∧ R t b) ∨ (R t a ∧ rank t < rank s))
    (hend : ∀ {s a}, R s a → (∀ t, ¬ step s t) → P s) {s : σ} {a : τ} (hs : R s a)
    (ha : Acc (fun b a => step' a b) a) : Ends step P s := by
  constructor
  · induction ha generalizing s with
    | intro a _ iha =>
      induction hn : rank s using Nat.strong_induction_on generalizing s with
      | _ n ihn =>
        refine ⟨_, fun t hst => ?_⟩
        rcases hstep hs hst with ⟨b, hab, ht⟩ | ⟨ht, hlt⟩
        · exact iha b hab ht
        · exact ihn (rank t) (hn ▸ hlt) ht rfl
  · intro t hst
    suffices ∃ b, R t b by
      obtain ⟨b, ht⟩ := this
      exact hend ht
    induction hst with
    | refl => exact ⟨a, hs⟩
    | tail _ hstep' ih =>
      obtain ⟨b, hb⟩ := ih
      rcases hstep hb hstep' with ⟨b', -, hb'⟩ | ⟨hb', -⟩
      · exact ⟨b', hb'⟩
      · exact ⟨b, hb'⟩

end Ends

namespace Handoff

/-! ### The system -/

variable {κ : Type*}

/-- An operation of the caller. -/
inductive Op (κ : Type*)
  | post (k : κ)
  | join (k : κ)
  deriving DecidableEq

/-- What a worker is doing. -/
inductive Worker
  | waiting
  | working
  | ready
  | done
  deriving DecidableEq

/-- The operations left to the caller, and the boxes and workers. -/
structure State (κ : Type*) where
  todo : List (Op κ)
  box : κ → Bool
  worker : κ → Worker

/-- All boxes are empty and all workers wait. -/
def State.start (ops : List (Op κ)) : State κ := ⟨ops, fun _ => false, fun _ => .waiting⟩

/-- The messages that were posted to a worker. -/
def State.sent (s : State κ) (k : κ) : ℕ :=
  (if s.box k then 1 else 0) + if s.worker k = .waiting then 0 else 1

/-- The results that were handed over by a worker. -/
def State.handed (s : State κ) (k : κ) : ℕ := if s.worker k = .done then 1 else 0

lemma State.sent_le_two (s : State κ) (k : κ) : s.sent k ≤ 2 := by
  unfold sent
  split <;> split <;> omega

/-- Each wait comes right after a post to the same worker. -/
inductive Paired : List (Op κ) → Prop
  | nil : Paired []
  | post (k : κ) {ops} : Paired ops → Paired (.post k :: ops)
  | call (k : κ) {ops} : Paired ops → Paired (.post k :: .join k :: ops)

lemma Paired.append {l l' : List (Op κ)} (h : Paired l) (h' : Paired l') : Paired (l ++ l') := by
  induction h with
  | nil => exact h'
  | post k _ ih => exact .post k ih
  | call k _ ih => exact .call k ih

lemma Paired.flatMap {ι : Type*} {f : ι → List (Op κ)} (h : ∀ i, Paired (f i)) (l : List ι) :
    Paired (l.flatMap f) := by
  induction l with
  | nil => exact .nil
  | cons i l ih => exact (h i).append ih

variable [DecidableEq κ]

/-- One step of the caller or of a worker. -/
inductive Step : State κ → State κ → Prop
  | post {k ops box worker} : box k = false →
      Step ⟨.post k :: ops, box, worker⟩ ⟨ops, Function.update box k true, worker⟩
  | join {k ops box worker} : worker k = .ready →
      Step ⟨.join k :: ops, box, worker⟩ ⟨ops, box, Function.update worker k .done⟩
  | take {k ops box worker} : box k = true → worker k = .waiting →
      Step ⟨ops, box, worker⟩
        ⟨ops, Function.update box k false, Function.update worker k .working⟩
  | work {k ops box worker} : worker k = .working →
      Step ⟨ops, box, worker⟩ ⟨ops, box, Function.update worker k .ready⟩

/-! ### What a run keeps -/

/-- The caller has done `ops` up to what is left. -/
structure Follows (ops : List (Op κ)) (s : State κ) : Prop where
  sent : ∀ k, s.sent k + s.todo.count (.post k) = ops.count (.post k)
  handed : ∀ k, s.handed k + s.todo.count (.join k) = ops.count (.join k)
  /-- The caller is between two operations of a pair only if it has posted. -/
  paired : Paired s.todo ∨ ∃ k rest, s.todo = .join k :: rest ∧ Paired rest ∧ 1 ≤ s.sent k

variable {ops : List (Op κ)} {s t : State κ} {k : κ}

lemma follows_start (h : Paired ops) : Follows ops (State.start ops) where
  sent k := by simp [State.start, State.sent]
  handed k := by simp [State.start, State.handed]
  paired := .inl h

lemma Step.sent (h : Step s t) (k : κ) :
    t.sent k + t.todo.count (.post k) = s.sent k + s.todo.count (.post k) := by
  cases h <;> simp only [State.sent, Function.update_apply, List.count_cons, beq_iff_eq,
    Op.post.injEq, reduceCtorEq] <;> grind

lemma Step.handed (h : Step s t) (k : κ) :
    t.handed k + t.todo.count (.join k) = s.handed k + s.todo.count (.join k) := by
  cases h <;> simp only [State.handed, Function.update_apply, List.count_cons, beq_iff_eq,
    Op.join.injEq, reduceCtorEq] <;> grind

lemma Step.follows (h : Step s t) (hs : Follows ops s) : Follows ops t where
  sent k := (h.sent k).trans (hs.sent k)
  handed k := (h.handed k).trans (hs.handed k)
  paired := by
    have hsent := h.sent
    cases h with
    | @post k rest box worker _ =>
      rcases hs.paired with h | ⟨k', rest', heq, -, -⟩
      · cases h with
        | post _ h => exact .inl h
        | call _ h => exact .inr ⟨k, _, rfl, h, by simp [State.sent]⟩
      · cases heq
    | join _ =>
      rcases hs.paired with h | ⟨k', rest', heq, h, -⟩
      · cases h
      · cases heq
        exact .inl h
    | take _ _ | work _ =>
      refine hs.paired.imp_right ?_
      rintro ⟨k', rest', rfl, h, hle⟩
      have := hsent k'
      dsimp only at this
      exact ⟨k', rest', rfl, h, by omega⟩

lemma Follows.waiting (h : Follows ops s) {rest : List (Op κ)} (htodo : s.todo = .post k :: rest)
    (htwo : ops.count (.post k) ≤ 2) (hbox : s.box k = true) : s.worker k = .waiting := by
  have hsent := h.sent k
  rw [htodo, List.count_cons_self, State.sent, if_pos hbox] at hsent
  split at hsent
  · assumption
  · omega

/-- A worker that is waited for has got a message. -/
lemma Follows.box (h : Follows ops s) {rest : List (Op κ)} (htodo : s.todo = .join k :: rest)
    (hwaiting : s.worker k = .waiting) : s.box k = true := by
  rcases h.paired with hp | ⟨k', rest', heq, -, hle⟩
  · rw [htodo] at hp
    cases hp
  · rw [htodo] at heq
    cases heq
    by_contra hbox
    simp [State.sent, hwaiting, hbox] at hle

lemma Follows.not_done (h : Follows ops s) {rest : List (Op κ)} (htodo : s.todo = .join k :: rest)
    (hone : ops.count (.join k) ≤ 1) : s.worker k ≠ .done := by
  intro hdone
  have hhanded := h.handed k
  rw [htodo, List.count_cons_self, State.handed, if_pos hdone] at hhanded
  omega

lemma Follows.count_le_two (h : Follows ops s) (htodo : s.todo = []) : ops.count (.post k) ≤ 2 := by
  have hsent := h.sent k
  rw [htodo, List.count_nil] at hsent
  have := s.sent_le_two k
  omega

/-- Only workers that are posted to do something. -/
lemma Follows.mem (h : Follows ops s) (hsent : s.sent k ≠ 0) : Op.post k ∈ ops := by
  have := h.sent k
  exact List.count_pos_iff.mp (by omega)

/-! ### All runs are finite -/

/-- The steps left to a worker. -/
def Worker.rank : Worker → ℕ
  | .waiting => 3
  | .working => 2
  | .ready => 1
  | .done => 0

/-- The steps left to the caller and the workers it posts to. -/
def State.rank (ops : List (Op κ)) (s : State κ) : ℕ :=
  s.todo.length + (ops.map fun
    | .post k => (s.worker k).rank
    | .join _ => 0).sum

lemma rank_update_lt {k : κ} (hk : Op.post k ∈ ops) {worker : κ → Worker} {w : Worker}
    (hlt : w.rank < (worker k).rank) :
    (ops.map fun
      | .post k' => (Function.update worker k w k').rank
      | .join _ => 0).sum <
    (ops.map fun
      | .post k' => (worker k').rank
      | .join _ => 0).sum := by
  refine List.sum_lt_sum _ _ ?_ ⟨.post k, hk, by simpa using hlt⟩
  rintro (k' | k') -
  · by_cases heq : k' = k
    · subst heq
      simpa using hlt.le
    · simp [heq]
  · exact le_rfl

/-- Every step makes the rank smaller, so that runs end. -/
lemma Follows.rank_lt (hs : Follows ops s) (h : Step s t) : t.rank ops < s.rank ops := by
  cases h with
  | post _ => simp [State.rank]
  | @join k rest box worker hready =>
    have hk : Op.post k ∈ ops := hs.mem (by simp [State.sent, hready])
    have := rank_update_lt hk (show Worker.done.rank < (worker k).rank by rw [hready]; decide)
    simp only [State.rank, List.length_cons]
    omega
  | @take k rest box worker hbox hwaiting =>
    have hk : Op.post k ∈ ops := hs.mem (by simp [State.sent, hbox])
    have := rank_update_lt hk (show Worker.working.rank < (worker k).rank by rw [hwaiting]; decide)
    simp only [State.rank]
    omega
  | @work k rest box worker hworking =>
    have hk : Op.post k ∈ ops := hs.mem (by simp [State.sent, hworking])
    have := rank_update_lt hk (show Worker.ready.rank < (worker k).rank by rw [hworking]; decide)
    simp only [State.rank]
    omega

lemma Follows.acc (hs : Follows ops s) : Acc (fun t s => Step s t) s := by
  induction hn : s.rank ops using Nat.strong_induction_on generalizing s with
  | _ n ih => exact ⟨_, fun t hst => ih _ (hn ▸ hs.rank_lt hst) (hst.follows hs) rfl⟩

end Handoff

end Lachesis.Core
