import Lachesis.Vector.ForklessCause
import Lachesis.Vector.Merged

/-!
# Runs of the index

Any sequence of calls in which events come after their parents runs without a fault and keeps the
invariant of the index. What the queries answer at the end of such a sequence is said by the graph
of the events alone.
-/

namespace Lachesis

open Lachesis.Core

/-- A call of the index. -/
inductive IndexCall
  | add (e : Event)
  | flush
  | dropNotFlushed
  | forklessCause (a b : EventID)
  | getHighestBeforeMerged (id : EventID)

namespace IndexCall

variable {C : VecCaches}

def run : IndexCall → IndexM C Unit
  | add e => Index.add e
  | flush => Index.flush
  | dropNotFlushed => Index.dropNotFlushed
  | forklessCause a b => do let _ ← Index.forklessCause a b
  | getHighestBeforeMerged id => do let _ ← Index.getHighestBeforeMerged id

/-- The events that are stored and those that are flushed after the call. -/
def events (s : Finset EventID × Finset EventID) : IndexCall → Finset EventID × Finset EventID
  | add e => (insert e.hash s.1, s.2)
  | flush => (s.1, s.1)
  | dropNotFlushed => (s.2, s.2)
  | forklessCause _ _ | getHighestBeforeMerged _ => s

variable (maxParents : ℕ) (V : Validators) (getEvent : GetEvent)

/-- An added event passed the checks and has its parents stored; queries are about stored
events. -/
def Legal (stored : Finset EventID) : IndexCall → Prop
  | add e => Checked maxParents getEvent e ∧ e.creator ∈ V.members ∧ ∀ p ∈ e.parents, p ∈ stored
  | flush | dropNotFlushed => True
  | forklessCause a b => a ∈ stored ∧ b ∈ stored
  | getHighestBeforeMerged id => id ∈ stored

instance (stored : Finset EventID) : DecidablePred (Legal maxParents V getEvent stored)
  | add _ => inferInstanceAs (Decidable (_ ∧ _ ∧ _))
  | flush | dropNotFlushed => inferInstanceAs (Decidable True)
  | forklessCause _ _ => inferInstanceAs (Decidable (_ ∧ _))
  | getHighestBeforeMerged _ => inferInstanceAs (Decidable (_ ∈ _))

end IndexCall

namespace Index

variable {C : VecCaches}

def run (calls : List IndexCall) : IndexM C Unit := calls.foldlM (fun _ call => call.run) ()

/-- The events that are stored after the calls. -/
def stored (calls : List IndexCall) : Finset EventID × Finset EventID :=
  calls.foldl IndexCall.events (∅, ∅)

variable (maxParents : ℕ) (V : Validators) (getEvent : GetEvent)

/-- Every call is legal where it is made. -/
def Legal : Finset EventID × Finset EventID → List IndexCall → Prop
  | _, [] => True
  | s, call :: calls => call.Legal maxParents V getEvent s.1 ∧ Legal (call.events s) calls

instance decidableLegal : ∀ s calls, Decidable (Legal maxParents V getEvent s calls)
  | _, [] => inferInstanceAs (Decidable True)
  | s, call :: calls =>
    have := decidableLegal (call.events s) calls
    inferInstanceAs (Decidable (call.Legal maxParents V getEvent s.1 ∧ _))

section

variable {maxParents V getEvent} {s : Finset EventID × Finset EventID} {calls : List IndexCall}
variable {vi : Index C}

/-- A legal call returns and keeps the invariant. -/
lemma Inv.call (h : vi.Inv maxParents V getEvent s.1 s.2) (hg : vi.getEvent = getEvent)
    {call : IndexCall} (hcall : call.Legal maxParents V getEvent s.1) :
    Returns call.run vi fun _ vi' =>
      vi'.Inv maxParents V getEvent (call.events s).1 (call.events s).2 ∧ vi'.getEvent = getEvent := by
  have hknown : ∀ x ∈ (s.1 : Set EventID), vi.getEvent x = getEvent x := fun x _ => by rw [hg]
  subst hg
  cases call with
  | add e =>
    obtain ⟨he, hc, hp⟩ := hcall
    rw [IndexCall.events, Finset.coe_insert]
    exact h.add hknown he hc hp
  | flush => exact h.flush hknown
  | dropNotFlushed => exact h.dropNotFlushed
  | forklessCause a b =>
    refine (h.forklessCause hcall.1 hcall.2).bind ?_
    rintro _ _ ⟨h', hg', -⟩
    exact Returns.pure ⟨h', hg'⟩
  | getHighestBeforeMerged id =>
    refine (getHighestBeforeMerged_returns h hcall).bind ?_
    rintro _ _ ⟨hsame, -⟩
    exact Returns.pure ⟨h.same hsame, hsame.getEvent⟩

/-- A legal sequence of calls returns and keeps the invariant. -/
theorem Inv.run (h : vi.Inv maxParents V getEvent s.1 s.2) (hg : vi.getEvent = getEvent)
    (hcalls : Legal maxParents V getEvent s calls) : Returns (run calls) vi fun _ =>
      Inv maxParents V getEvent (calls.foldl IndexCall.events s).1
        (calls.foldl IndexCall.events s).2 := by
  induction calls generalizing s vi with
  | nil => exact Returns.pure h
  | cons call calls ih =>
    rw [Index.run, List.foldlM_cons]
    exact (h.call hg hcalls.1).bind fun _ _ h' => ih h'.1 h'.2 hcalls.2

/-- A legal sequence of calls on a new index. -/
theorem inv_run (hcalls : Legal maxParents V getEvent (∅, ∅) calls) :
    Returns (run calls) (Index.new V .empty getEvent : Index C) fun _ =>
      Inv maxParents V getEvent (stored calls).1 (stored calls).2 := by
  refine Inv.run (s := (∅, ∅)) (Inv.new (fun _ _ => rfl) ⟨?_, ?_⟩ ?_) rfl hcalls
  · simp
  · simp
  · simpa using Inv.describes_empty

/-- What `ForklessCause` answers after the calls. -/
def answer (C : VecCaches) (V : Validators) (getEvent : GetEvent)
    (calls : List IndexCall) (a b : EventID) : Except Fault Bool :=
  ((do run calls; forklessCause a b).run (Index.new V .empty getEvent : Index C)).map Prod.fst

lemma exists_run_of_answer {a b : EventID} {r : Bool} (h : answer C V getEvent calls a b = .ok r)
    (hrun : (run calls).run (Index.new V .empty getEvent) = .ok ((), vi)) :
    ∃ vi', (forklessCause a b).run vi = .ok (r, vi') := by
  simp only [answer, StateT.run_bind, hrun] at h
  cases hcause : (forklessCause a b).run vi with
  | error fault => simp [bind, Except.bind, hcause, Except.map] at h
  | ok result =>
    obtain ⟨r', vi'⟩ := result
    obtain rfl : r' = r := by simpa [bind, Except.bind, hcause, Except.map] using h
    exact ⟨vi', rfl⟩

end

/-! ### A graph with a fork -/

/-- Caches of two entries. -/
def smallCaches : VecCaches := ⟨.lru 2, .lru 2, .lru 2, .lru 2⟩

namespace Forked

/-- One side of a fork of the validator 3. -/
def left : Event := ⟨1, 1, 1, true, 3, 0, [], 1, 1, 1, 1⟩

/-- The other side. -/
def right : Event := ⟨1, 1, 1, true, 3, 0, [], 1, 1, 1, 2⟩

/-- An event of the validator 1 that sees one side. -/
def aboveLeft : Event := ⟨1, 1, 1, true, 1, 0, [left.hash], 2, 1, 1, 3⟩

/-- An event of the validator 2 that sees the other side. -/
def aboveRight : Event := ⟨1, 1, 1, true, 2, 0, [right.hash], 2, 1, 1, 4⟩

def events : GetEvent := lookup [left, right, aboveLeft, aboveRight]

/-- The events are added, with a flush and a query in between. -/
def calls : List IndexCall :=
  [.add left, .flush, .add right, .forklessCause left.hash left.hash, .add aboveLeft,
    .add aboveRight]

/-- Three validators of one stake. -/
def equal : Validators := ⟨[⟨1, 1⟩, ⟨2, 1⟩, ⟨3, 1⟩], by decide, by decide, by decide⟩

/-- The forking validator holds most of the stake. -/
def heavy : Validators := ⟨[⟨3, 5⟩, ⟨1, 1⟩, ⟨2, 1⟩], by decide, by decide, by decide⟩

lemma not_selfSees {x y : Event} (hx : (eventDag events).selfParent x.hash = none)
    (hne : x.hash ≠ y.hash) : ¬ (eventDag events).SelfSees x.hash y.hash := by
  intro h
  rcases Relation.ReflTransGen.cases_head h with heq | ⟨z, hz, -⟩
  · exact hne heq
  · rw [hx] at hz
    cases hz

end Forked

/-! ### What the queries answer -/

section

variable {maxParents V getEvent} {calls : List IndexCall}

/-- After any calls, in any state of the caches, `ForklessCause` answers what the graph says. -/
theorem forklessCause_iff_graph (hcalls : Legal maxParents V getEvent (∅, ∅) calls) :
    Returns (run calls) (Index.new V .empty getEvent : Index C) fun _ vi =>
      ∀ a ∈ (stored calls).1, ∀ b ∈ (stored calls).1, Returns (forklessCause a b) vi fun r _ =>
        (r = true ↔ ¬ (eventDag getEvent).SeesFork a ((eventDag getEvent).creator b) ∧
          V.quorum ≤ ∑ v ∈ (eventDag getEvent).relayers V.members a b, V.get v) ∧
        (V.total < 2 ^ 64 → (r = true ↔
          (eventDag getEvent).ForklessCause V.members V.stakeOf V.quorum.toNat a b)) := by
  refine (inv_run hcalls).mono fun _ vi h a ha b hb => ?_
  refine (h.forklessCause ha hb).mono ?_
  rintro r _ ⟨-, -, hr⟩
  exact ⟨hr, fun htotal => hr.trans (forklessCaused_iff htotal)⟩

theorem forklessCause_iff_graph_forked :
    Forked.aboveLeft.hash ∈ (stored Forked.calls).1 ∧
    Returns (run Forked.calls) (Index.new Forked.equal .empty Forked.events : Index smallCaches)
      fun _ vi => ∀ b ∈ (stored Forked.calls).1,
        Returns (forklessCause Forked.aboveLeft.hash b) vi fun r _ => r = true ↔
          (eventDag Forked.events).ForklessCause Forked.equal.members Forked.equal.stakeOf
            Forked.equal.quorum.toNat Forked.aboveLeft.hash b := by
  have hmem : Forked.aboveLeft.hash ∈ (stored Forked.calls).1 := by decide +kernel
  have hlegal : Legal 3 Forked.equal Forked.events (∅, ∅) Forked.calls := by decide +kernel
  exact ⟨hmem, (forklessCause_iff_graph hlegal).mono fun _ vi h b hb =>
    (h _ hmem b hb).mono fun r _ hr => hr.2 (by decide +kernel)⟩

/-- After any calls, `GetHighestBeforeMerged` answers what the graph says: no order of the calls
makes a difference. -/
theorem getHighestBeforeMerged_exact (hcalls : Legal maxParents V getEvent (∅, ∅) calls) :
    Returns (run calls) (Index.new V .empty getEvent : Index C) fun _ vi =>
      ∀ id ∈ (stored calls).1, ∀ v ∈ V.members, Returns (getHighestBeforeMerged id) vi fun r _ =>
        ∃ seqs, r = some seqs ∧
        ((seqs.get (V.getIdx v)).isForkDetected = true ↔ (eventDag getEvent).SeesFork id v) ∧
        (¬ (eventDag getEvent).SeesFork id v →
          (∀ y, (eventDag getEvent).Sees id y → (eventDag getEvent).creator y ≠ v) →
          seqs.get (V.getIdx v) = ⟨0, 0⟩) ∧
        (¬ (eventDag getEvent).SeesFork id v →
          (∃ y, (eventDag getEvent).Sees id y ∧ (eventDag getEvent).creator y = v) →
          IsGreatest (Set.image (eventDag getEvent).seq
            {y | (eventDag getEvent).Sees id y ∧ (eventDag getEvent).creator y = v})
            (seqs.get (V.getIdx v)).seq ∧
          IsLeast (Set.image (eventDag getEvent).seq
            {y | (eventDag getEvent).Sees id y ∧ (eventDag getEvent).creator y = v})
            (seqs.get (V.getIdx v)).minSeq) ∧
        ∀ (C' : VecCaches) (calls' : List IndexCall), Legal maxParents V getEvent (∅, ∅) calls' →
          id ∈ (stored calls').1 → Returns (run calls') (Index.new V .empty getEvent : Index C')
            fun _ vi' => Returns (getHighestBeforeMerged id) vi' fun r' _ =>
              ∃ seqs', r' = some seqs' ∧ seqs'.get (V.getIdx v) = seqs.get (V.getIdx v) := by
  refine (inv_run hcalls).mono fun _ vi h id hid v hv => ?_
  refine (getHighestBeforeMerged_returns h hid).mono ?_
  rintro _ _ ⟨-, seqs, rfl, hobs⟩
  obtain ⟨t, ht⟩ := hobs v hv
  obtain ⟨hfork, hzero, hbounds⟩ := ht.exact h.checked.valid hid
  refine ⟨seqs, rfl, hfork, hzero, hbounds, fun C' calls' hcalls' hid' => ?_⟩
  refine (inv_run hcalls').mono fun _ vi' h' => ?_
  refine (getHighestBeforeMerged_returns h' hid').mono ?_
  rintro _ _ ⟨-, seqs', rfl, hobs'⟩
  obtain ⟨t', ht'⟩ := hobs' v hv
  exact ⟨seqs', rfl, ht'.unique ht⟩

theorem getHighestBeforeMerged_exact_forked :
    Forked.aboveLeft.hash ∈ (stored Forked.calls).1 ∧
    Returns (run Forked.calls) (Index.new Forked.equal .empty Forked.events : Index smallCaches)
      fun _ vi => Returns (getHighestBeforeMerged Forked.aboveLeft.hash) vi fun r _ =>
        ∃ seqs, r = some seqs ∧ ((seqs.get 2).isForkDetected = true ↔
          (eventDag Forked.events).SeesFork Forked.aboveLeft.hash 3) := by
  have hmem : Forked.aboveLeft.hash ∈ (stored Forked.calls).1 := by decide +kernel
  have hlegal : Legal 3 Forked.equal Forked.events (∅, ∅) Forked.calls := by decide +kernel
  refine ⟨hmem, (getHighestBeforeMerged_exact hlegal).mono fun _ vi h =>
    (h _ hmem 3 (by decide +kernel)).mono ?_⟩
  rintro r _ ⟨seqs, hr, hfork, -⟩
  exact ⟨seqs, hr, hfork⟩

/-- If the index finds that both sides of a fork forkless cause some event, the forking validators
hold a quorum intersection, which is more than a third of the stake. -/
theorem forklessCause_safety (hV : V.total < 2 ^ 63)
    (hcalls : Legal maxParents V getEvent (∅, ∅) calls) :
    Returns (run calls) (Index.new V .empty getEvent : Index C) fun _ vi =>
      ∀ a₁ ∈ (stored calls).1, ∀ a₂ ∈ (stored calls).1, ∀ b₁ ∈ (stored calls).1,
      ∀ b₂ ∈ (stored calls).1, (eventDag getEvent).creator b₁ = (eventDag getEvent).creator b₂ →
        ¬ (eventDag getEvent).SelfSees b₁ b₂ → ¬ (eventDag getEvent).SelfSees b₂ b₁ →
        (∃ vi₁, (forklessCause a₁ b₁).run vi = .ok (true, vi₁)) →
        (∃ vi₂, (forklessCause a₂ b₂).run vi = .ok (true, vi₂)) →
        2 * V.quorum.toNat ≤ weight V.stakeOf
          (V.members.filter ((eventDag getEvent).Forks (stored calls).1)) + V.total ∧
        V.total < 3 * weight V.stakeOf
          (V.members.filter ((eventDag getEvent).Forks (stored calls).1)) := by
  refine (inv_run hcalls).mono fun _ vi h a₁ ha₁ a₂ ha₂ b₁ hb₁ b₂ hb₂ hc h₁₂ h₂₁ => ?_
  rintro ⟨vi₁, hrun₁⟩ ⟨vi₂, hrun₂⟩
  have hf₁ := (forklessCaused_iff (by omega)).mp (((h.forklessCause ha₁ hb₁).of_run hrun₁).2.2.mp rfl)
  have hf₂ := (forklessCaused_iff (by omega)).mp (((h.forklessCause ha₂ hb₂).of_run hrun₂).2.2.mp rfl)
  have hle := h.checked.valid.two_mul_le_weight_forks ha₁ ha₂ hc h₁₂ h₂₁ hf₁ hf₂
  have hsuper := V.supermajority hV
  refine ⟨hle, ?_⟩
  unfold Validators.total at hsuper ⊢
  omega

theorem forklessCause_safety_heavy :
    answer smallCaches Forked.heavy Forked.events Forked.calls Forked.aboveLeft.hash
      Forked.left.hash = .ok true ∧
    answer smallCaches Forked.heavy Forked.events Forked.calls Forked.aboveRight.hash
      Forked.right.hash = .ok true ∧
    Forked.heavy.total < 3 * weight Forked.heavy.stakeOf
      (Forked.heavy.members.filter ((eventDag Forked.events).Forks (stored Forked.calls).1)) := by
  have hleft : answer smallCaches Forked.heavy Forked.events Forked.calls Forked.aboveLeft.hash
      Forked.left.hash = .ok true := by decide +kernel
  have hright : answer smallCaches Forked.heavy Forked.events Forked.calls Forked.aboveRight.hash
      Forked.right.hash = .ok true := by decide +kernel
  have hlegal : Legal 3 Forked.heavy Forked.events (∅, ∅) Forked.calls := by decide +kernel
  obtain ⟨_, vi, hrun, h⟩ := forklessCause_safety (C := smallCaches) (V := Forked.heavy)
    (by decide +kernel) hlegal
  refine ⟨hleft, hright, (h Forked.aboveLeft.hash ?_ Forked.aboveRight.hash ?_ Forked.left.hash ?_
    Forked.right.hash ?_ ?_ ?_ ?_ (exists_run_of_answer hleft hrun)
    (exists_run_of_answer hright hrun)).2⟩
  · decide +kernel
  · decide +kernel
  · decide +kernel
  · decide +kernel
  · decide +kernel
  · exact Forked.not_selfSees (by decide +kernel) (by decide +kernel)
  · exact Forked.not_selfSees (by decide +kernel) (by decide +kernel)

/-- Stakes whose sum does not fit in 64 bits. -/
def Forked.overflowing : Validators :=
  ⟨[⟨2, 9223372036854775809⟩, ⟨1, 9223372036854775808⟩, ⟨3, 1⟩], by decide +kernel,
    by decide +kernel, by decide +kernel⟩

/-- With such stakes both sides of a fork of a validator of stake 1 forkless cause an event, though
nobody else forks. -/
theorem forklessCause_overflowing :
    Legal 3 Forked.overflowing Forked.events (∅, ∅) Forked.calls ∧
    ¬ (eventDag Forked.events).SelfSees Forked.left.hash Forked.right.hash ∧
    ¬ (eventDag Forked.events).SelfSees Forked.right.hash Forked.left.hash ∧
    answer smallCaches Forked.overflowing Forked.events Forked.calls Forked.aboveLeft.hash
      Forked.left.hash = .ok true ∧
    answer smallCaches Forked.overflowing Forked.events Forked.calls Forked.aboveRight.hash
      Forked.right.hash = .ok true ∧
    weight Forked.overflowing.stakeOf (Forked.overflowing.members.filter
        ((eventDag Forked.events).Forks (stored Forked.calls).1)) +
      Forked.overflowing.totalStake.toNat < 2 * Forked.overflowing.quorum.toNat ∧
    3 * weight Forked.overflowing.stakeOf (Forked.overflowing.members.filter
        ((eventDag Forked.events).Forks (stored Forked.calls).1)) ≤ Forked.overflowing.total := by
  refine ⟨by decide +kernel, ?_, ?_, by decide +kernel, by decide +kernel, by decide +kernel,
    by decide +kernel⟩
  · exact Forked.not_selfSees (by decide +kernel) (by decide +kernel)
  · exact Forked.not_selfSees (by decide +kernel) (by decide +kernel)

end

end Index

end Lachesis
