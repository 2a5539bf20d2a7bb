import Lachesis.Poset.ElectionRuns

/-!
# Failures of an election

If more than a third of the stake is Byzantine, a root may observe two roots of one validator, and
`ProcessRoot` reports an error. Here the roots observe each other in any way; all that is asked of
them is that the observed roots are processed first and hold a quorum.

The text of the error names the root of the subject that the votes for yes agree on. If the second
vote of a validator comes before any vote for yes, there is no such root, and `ProcessRoot`
dereferences a nil pointer instead of returning the error.
-/

namespace Lachesis

open Lachesis.Core Std

namespace Election

/-! ### Runs over any relation -/

section Runs

variable (observe : EventID → EventID → Bool) (slot : EventID → Slot) (V : Validators) (f : ℕ)

/-- The roots of the previous frame that the new root observes. -/
def Feed.observed (x : Feed) : List RootAndSlot :=
  observedRoots observe (x.frameRoots ((slot x.root).frame - 1)) x.root

/-- The call of `ProcessRoot`. -/
def call (el : Election) (x : Feed) : Except Halt (Option Res × Election) :=
  el.processRoot ⟨x.root, slot x.root⟩ (x.observed observe slot)

/-- A root of the second or a later round is processed after the roots that it observes: these are
roots of validators in the previous frame, each listed once, and have a quorum of the stake. -/
structure Feed.Orderly (given : List EventID) (x : Feed) : Prop where
  nodup : (x.observed observe slot).Nodup
  slots : ∀ y ∈ x.observed observe slot, y.slot = slot y.id ∧
    y.slot.frame + 1 = (slot x.root).frame ∧ y.slot.validator ∈ V.members
  given : ∀ y ∈ x.observed observe slot, y.id ∈ given
  quorum : V.quorum ≤ ∑ v ∈ ((x.observed observe slot).map (·.slot.validator)).toFinset, V.get v

/-- Every call is orderly where it is made. -/
def OrderlyFeeds : List EventID → List Feed → Prop
  | _, [] => True
  | given, x :: feeds =>
    (f + 1 < (slot x.root).frame → x.Orderly observe slot V given) ∧
      OrderlyFeeds (x.root :: given) feeds

instance (given : List EventID) (x : Feed) : Decidable (x.Orderly observe slot V given) :=
  decidable_of_iff ((x.observed observe slot).Nodup ∧
    (∀ y ∈ x.observed observe slot, y.slot = slot y.id ∧
      y.slot.frame + 1 = (slot x.root).frame ∧ y.slot.validator ∈ V.members) ∧
    (∀ y ∈ x.observed observe slot, y.id ∈ given) ∧
    V.quorum ≤ ∑ v ∈ ((x.observed observe slot).map (·.slot.validator)).toFinset, V.get v)
    ⟨fun h => ⟨h.1, h.2.1, h.2.2.1, h.2.2.2⟩, fun h => ⟨h.nodup, h.slots, h.given, h.quorum⟩⟩

instance decidableOrderlyFeeds : ∀ given feeds, Decidable (OrderlyFeeds observe slot V f given feeds)
  | _, [] => inferInstanceAs (Decidable True)
  | given, x :: feeds =>
    have := decidableOrderlyFeeds (x.root :: given) feeds
    inferInstanceAs (Decidable ((_ → _) ∧ _))

def firstUndecided (el : Election) : Option StakerID :=
  el.validators.ids.find? fun v => el.decidedRoots[v]?.isNone

/-- One of the roots voted for the subject. -/
def Speaks (el : Election) (subject : StakerID) (roots : List RootAndSlot) : Prop :=
  ∃ y ∈ roots, ∃ vote, el.votes[(⟨y.id, subject⟩ : VoteID)]? = some vote ∧ vote.yes = true

/-- Of the observed roots `pre ++ [x]`, the last one is the first that has the validator of an
earlier one. -/
def RepeatsAt (observed pre : List RootAndSlot) (x : RootAndSlot) : Prop :=
  (∃ rest, observed = pre ++ x :: rest) ∧ (pre.map (·.slot.validator)).Nodup ∧
    x.slot.validator ∈ pre.map (·.slot.validator)

/-- Where the observed roots have a validator for the second time, one of them up to there voted for
the first validator that is not decided. -/
def Nameable (el : Election) (observed : List RootAndSlot) : Prop :=
  ∀ pre x, RepeatsAt observed pre x → ∀ s, el.firstUndecided = some s → el.Speaks s (pre ++ [x])

/-- `ProcessRoot` returns a result, nothing or an error. -/
def Returned {α : Type} (r : Except Halt α) : Prop := ∀ fault, r ≠ .error (.fault fault)

/-- The call returns, and with an error if the election is not decided and a root of the second or a
later round observes two roots of one validator. -/
structure Reported (el : Election) (x : Feed) : Prop where
  returned : Returned (call observe slot el x)
  error : el.chooseAtropos = .ok none → el.frameToDecide + 1 < (slot x.root).frame →
    (∃ y ∈ x.observed observe slot, ∃ y' ∈ x.observed observe slot, y.id ≠ y'.id ∧
      y.slot.validator = y'.slot.validator) →
    ∃ err, call observe slot el x = .error (.error err)

end Runs

/-! ### One subject -/

variable {pre : List RootAndSlot}

section Subject

variable {el : Election} {s : StakerID} {t : Tally} {done : List RootAndSlot} {x : RootAndSlot}

variable {vote : VoteValue}

lemma speaks_append (hget : el.votes[(⟨x.id, s⟩ : VoteID)]? = some vote) :
    el.Speaks s (done ++ [x]) ↔ el.Speaks s done ∨ vote.yes = true := by
  constructor
  · rintro ⟨y, hy, vote', hget', hyes⟩
    rcases List.mem_append.mp hy with hy | hy
    · exact .inl ⟨y, hy, vote', hget', hyes⟩
    · rw [List.mem_singleton.mp hy, hget] at hget'
      cases hget'
      exact .inr hyes
  · rintro (⟨y, hy, hvote⟩ | hyes)
    · exact ⟨y, List.mem_append_left _ hy, hvote⟩
    · exact ⟨x, by simp, vote, hget, hyes⟩

/-- The counters after the votes of `done`: a subject is known once a vote was for it. -/
structure Tally.Heard (el : Election) (s : StakerID) (done : List RootAndSlot) (t : Tally) :
    Prop where
  yes : ∃ S, t.yesVotes.Counted el.validators S
  no : ∃ S, t.noVotes.Counted el.validators S
  all : t.allVotes.Counted el.validators (done.map (·.slot.validator)).toFinset
  subject : t.subjectHash.isSome = true ↔ el.Speaks s done

lemma heard_nil (el : Election) (s : StakerID) : el.newTally.Heard el s [] where
  yes := ⟨∅, StakeCounter.counted_newCounter _⟩
  no := ⟨∅, StakeCounter.counted_newCounter _⟩
  all := StakeCounter.counted_newCounter _
  subject := by simp [newTally, Speaks]

/-- A vote for another root of the subject is an error. -/
lemma count_of_clash {hash : EventID} (hget : el.votes[(⟨x.id, s⟩ : VoteID)]? = some vote)
    (hclash : t.subjectHash.filter (fun hash => vote.yes && hash ≠ vote.observedRoot) = some hash) :
    el.Speaks s (done ++ [x]) ∧ ∃ err, el.count s t x = .error (.error err) := by
  have hvote := (Option.filter_eq_some_iff.mp hclash).2
  rw [Bool.and_eq_true] at hvote
  refine ⟨(speaks_append hget).mpr (.inr hvote.1), ?_⟩
  simp only [Election.count, hget, hclash]
  exact ⟨_, rfl⟩

section

variable (h : t.Heard el s done) (hx : x.slot.validator ∈ el.validators.members)
  (hget : el.votes[(⟨x.id, s⟩ : VoteID)]? = some vote)
include h hx hget

lemma Tally.Heard.side :
    ∃ t', t.side x.slot.validator vote = .ok t' ∧ t'.allVotes = t.allVotes ∧
      (∃ S, t'.yesVotes.Counted el.validators S) ∧ (∃ S, t'.noVotes.Counted el.validators S) ∧
      (t'.subjectHash.isSome = true ↔ el.Speaks s (done ++ [x])) := by
  obtain ⟨Y, hY⟩ := h.yes
  obtain ⟨N, hN⟩ := h.no
  rw [speaks_append hget, Tally.side]
  by_cases hyes : vote.yes = true
  · obtain ⟨c, hc, hc'⟩ := hY.count hx
    rw [if_pos hyes, hc]
    exact ⟨_, rfl, rfl, ⟨_, hc'⟩, ⟨N, hN⟩, by simp [hyes]⟩
  · obtain ⟨c, hc, hc'⟩ := hN.count hx
    rw [if_neg hyes, hc]
    exact ⟨_, rfl, rfl, ⟨Y, hY⟩, ⟨_, hc'⟩, by simp [hyes, h.subject]⟩

lemma Tally.Heard.count_fresh (hfresh : x.slot.validator ∉ done.map (·.slot.validator)) :
    (∃ t', el.count s t x = .ok t' ∧ t'.Heard el s (done ++ [x])) ∨
      el.Speaks s (done ++ [x]) ∧ ∃ err, el.count s t x = .error (.error err) := by
  obtain ⟨t', hside, hall, hyes, hno, hsubject⟩ := h.side hx hget
  cases hclash : t.subjectHash.filter fun hash => vote.yes && hash ≠ vote.observedRoot with
  | some hash => exact .inr (count_of_clash hget hclash)
  | none =>
    obtain ⟨c, hc, hc'⟩ := h.all.count hx
    rw [decide_eq_true (by simpa using hfresh), ← hall] at hc
    refine .inl ⟨_, count_eq hget hclash hside hc, hyes, hno, ?_, hsubject⟩
    have hset : ((done ++ [x]).map (·.slot.validator)).toFinset =
        insert x.slot.validator (done.map (·.slot.validator)).toFinset := by
      ext v
      simp
    rwa [hset]

/-- The second vote of a validator: an error that needs the subject for its text. -/
lemma Tally.Heard.count_repeated (hrepeated : x.slot.validator ∈ done.map (·.slot.validator)) :
    (el.Speaks s (done ++ [x]) → ∃ err, el.count s t x = .error (.error err)) ∧
      (¬ el.Speaks s (done ++ [x]) → el.count s t x = .error (.fault .nilDereference)) := by
  obtain ⟨t', hside, hall, -, -, hsubject⟩ := h.side hx hget
  cases hclash : t.subjectHash.filter fun hash => vote.yes && hash ≠ vote.observedRoot with
  | some hash =>
    obtain ⟨hspeaks, herr⟩ := count_of_clash hget hclash
    exact ⟨fun _ => herr, fun hno => absurd hspeaks hno⟩
  | none =>
    obtain ⟨c, hc, -⟩ := h.all.count hx
    rw [decide_eq_false (by simpa using hrepeated), ← hall] at hc
    cases hhash : t'.subjectHash with
    | none =>
      refine ⟨fun hspeaks => absurd (hsubject.mpr hspeaks) (by simp [hhash]), fun _ => ?_⟩
      simp only [Election.count, hget, hclash, hside, Halt.ofFault, hc, bind, Except.bind,
        Bool.false_eq_true, if_false, hhash]
    | some hash =>
      refine ⟨fun _ => ⟨.twoVoters hash el.frameToDecide s, ?_⟩,
        fun hno => absurd (hsubject.mp (by simp [hhash])) hno⟩
      simp only [Election.count, hget, hclash, hside, Halt.ofFault, hc, bind, Except.bind,
        Bool.false_eq_true, if_false, hhash]

end

/-- Votes of different validators are counted unless they contradict. -/
lemma foldlM_count_nodup {l : List RootAndSlot}
    (hmem : ∀ y ∈ l, y.slot.validator ∈ el.validators.members)
    (hvotes : ∀ y ∈ l, (el.votes[(⟨y.id, s⟩ : VoteID)]?).isSome)
    (hnodup : (l.map (·.slot.validator)).Nodup) :
    (∃ t, l.foldlM (el.count s) el.newTally = .ok t ∧ t.Heard el s l) ∨
      el.Speaks s l ∧ ∃ err, l.foldlM (el.count s) el.newTally = .error (.error err) := by
  induction l using List.reverseRecOn with
  | nil => exact .inl ⟨_, rfl, heard_nil el s⟩
  | append_singleton l x ih =>
    rw [List.map_append, List.nodup_append] at hnodup
    obtain ⟨vote, hget⟩ := Option.isSome_iff_exists.mp (hvotes x (by simp))
    rw [List.foldlM_append]
    rcases ih (fun y hy => hmem y (by simp [hy])) (fun y hy => hvotes y (by simp [hy]))
      hnodup.1 with ⟨t, hrun, ht⟩ | ⟨hspeaks, err, hrun⟩
    · rw [hrun]
      have hfresh : x.slot.validator ∉ l.map (·.slot.validator) := fun hin =>
        hnodup.2.2 _ hin x.slot.validator (by simp) rfl
      rcases ht.count_fresh (hmem x (by simp)) hget hfresh with
        ⟨t', hcount, ht'⟩ | ⟨hspeaks, err, hcount⟩
      · exact .inl ⟨t', by simp [bind, Except.bind, hcount, pure, Except.pure], ht'⟩
      · exact .inr ⟨hspeaks, err, by simp [bind, Except.bind, hcount]⟩
    · exact .inr ⟨(speaks_append hget).mpr (.inl hspeaks), err, by rw [hrun]; rfl⟩

/-- Counting a validator twice is an error, or a fault if no vote is a yes. -/
lemma foldlM_count_repeats {observed : List RootAndSlot}
    (hmem : ∀ y ∈ observed, y.slot.validator ∈ el.validators.members)
    (hvotes : ∀ y ∈ observed, (el.votes[(⟨y.id, s⟩ : VoteID)]?).isSome)
    (hrepeats : RepeatsAt observed pre x) :
    (el.Speaks s (pre ++ [x]) →
        ∃ err, observed.foldlM (el.count s) el.newTally = .error (.error err)) ∧
      (¬ el.Speaks s (pre ++ [x]) →
        observed.foldlM (el.count s) el.newTally = .error (.fault .nilDereference)) := by
  obtain ⟨⟨rest, rfl⟩, hnodup, hrep⟩ := hrepeats
  obtain ⟨vote, hget⟩ := Option.isSome_iff_exists.mp (hvotes x (by simp))
  rw [List.foldlM_append]
  rcases foldlM_count_nodup (fun y hy => hmem y (by simp [hy])) (fun y hy => hvotes y (by simp [hy]))
    hnodup with ⟨t, hrun, ht⟩ | ⟨hspeaks, err, hrun⟩
  · obtain ⟨hyes, hno⟩ := ht.count_repeated (hmem x (by simp)) hget hrep
    rw [hrun]
    refine ⟨fun hspeaks => ?_, fun hsilent => ?_⟩
    · obtain ⟨err, herr⟩ := hyes hspeaks
      exact ⟨err, by simp [bind, Except.bind, herr]⟩
    · simp [bind, Except.bind, hno hsilent]
  · rw [hrun]
    exact ⟨fun _ => ⟨err, rfl⟩, fun hno => absurd ((speaks_append hget).mpr (.inl hspeaks)) hno⟩

end Subject

/-! ### One root -/

variable {s : StakerID}

section Root

variable {el : Election} {observed : List RootAndSlot}

lemma nodup_or_repeats (observed : List RootAndSlot) :
    (observed.map (·.slot.validator)).Nodup ∨ ∃ pre x, RepeatsAt observed pre x := by
  induction observed using List.reverseRecOn with
  | nil => exact .inl List.nodup_nil
  | append_singleton l x ih =>
    rcases ih with hnodup | ⟨pre, y, ⟨rest, rfl⟩, hpre, hy⟩
    · by_cases hx : x.slot.validator ∈ l.map (·.slot.validator)
      · exact .inr ⟨l, x, ⟨[], rfl⟩, hnodup, hx⟩
      · left
        rw [List.map_append, List.map_singleton]
        exact hnodup.append (List.nodup_singleton _) (by simpa using hx)
    · exact .inr ⟨pre, y, ⟨rest ++ [x], by simp⟩, hpre, hy⟩

lemma RepeatsAt.exists_two {x : RootAndSlot} (hnodup : observed.Nodup)
    (h : RepeatsAt observed pre x) : ∃ y ∈ observed, ∃ y' ∈ observed, y ≠ y' ∧
      y.slot.validator = y'.slot.validator := by
  obtain ⟨⟨rest, rfl⟩, -, hx⟩ := h
  obtain ⟨y, hy, hval⟩ := List.mem_map.mp hx
  refine ⟨y, by simp [hy], x, by simp, ?_, hval⟩
  exact (List.nodup_append.mp hnodup).2.2 y hy x (by simp)

lemma exists_repeats {y y' : RootAndSlot} (hy : y ∈ observed) (hy' : y' ∈ observed) (hne : y ≠ y')
    (hval : y.slot.validator = y'.slot.validator) : ∃ pre x, RepeatsAt observed pre x := by
  rcases nodup_or_repeats observed with hnodup | hrepeats
  · exact absurd (List.inj_on_of_nodup_map hnodup hy hy' hval) hne
  · exact hrepeats

lemma majority_returned (hmem : ∀ y ∈ observed, y.slot.validator ∈ el.validators.members)
    (hvotes : ∀ y ∈ observed, (el.votes[(⟨y.id, s⟩ : VoteID)]?).isSome)
    (hnodup : (observed.map (·.slot.validator)).Nodup)
    (hquorum : el.validators.quorum ≤
      ∑ v ∈ (observed.map (·.slot.validator)).toFinset, el.validators.get v) :
    Returned (el.majority observed s) := by
  intro fault hfault
  rcases foldlM_count_nodup hmem hvotes hnodup with ⟨t, hrun, ht⟩ | ⟨-, err, hrun⟩
  · have hq : t.allVotes.hasQuorum = true := by
      rw [StakeCounter.hasQuorum, ht.all.quorum, ht.all.sum, decide_eq_true_eq]
      exact hquorum
    simp [majority, hrun, bind, Except.bind, hq, pure, Except.pure] at hfault
  · simp [majority, hrun, bind, Except.bind] at hfault

lemma chooseAmong_returned (el : Election) (l : List StakerID) : Returned (el.chooseAmong l) := by
  intro fault
  induction l with
  | nil => simp [chooseAmong]
  | cons v l ih =>
    rw [chooseAmong]
    cases el.decidedRoots[v]? with
    | none => simp
    | some vote =>
      simp only
      split_ifs
      · simp
      · exact ih

lemma exists_firstUndecided (h : el.chooseAtropos = .ok none) :
    ∃ s rest, el.firstUndecided = some s ∧ el.undecided = s :: rest := by
  have hgo : ∀ l, el.chooseAmong l = .ok none → ∃ s rest,
      l.find? (fun v => el.decidedRoots[v]?.isNone) = some s ∧
        l.filter (fun v => el.decidedRoots[v]?.isNone) = s :: rest := by
    intro l hl
    induction l with
    | nil => simp [chooseAmong] at hl
    | cons v l ih =>
      rw [chooseAmong] at hl
      cases hv : el.decidedRoots[v]? with
      | none =>
        exact ⟨v, l.filter fun v => el.decidedRoots[v]?.isNone, by simp [hv], by simp [hv]⟩
      | some vote =>
        simp only [hv] at hl
        split_ifs at hl with hyes
        · cases hl
        · obtain ⟨s, rest, hfind, hfilter⟩ := ih hl
          exact ⟨s, rest, by simp [hv, hfind], by simp [hv, hfilter]⟩
  exact hgo _ h

end Root

/-! ### Votes that are cast -/

/-- Only errors are returned, no fault. -/
abbrev Reports {α : Type} (Q : α → Prop) (r : Except Halt α) : Prop :=
  Gives (fun h => ∃ err, h = .error err) Q r

lemma Returned.reports {α : Type} {r : Except Halt α} (h : Returned r) :
    Reports (fun a => r = .ok a) r where
  ok _ ha := ha
  error e he := by
    cases e with
    | error err => exact ⟨err, rfl⟩
    | fault fault => exact absurd he (h fault)

lemma returned_of_reports {α : Type} {Q : α → Prop} {r : Except Halt α} (h : Reports Q r) :
    Returned r := by
  intro fault hfault
  obtain ⟨err, herr⟩ := h.error _ hfault
  cases herr

variable {el' : Election}

section Voted

variable {observe : EventID → EventID → Bool} {slot : EventID → Slot} {V : Validators} {f : ℕ}
variable {given : List EventID} {el : Election} {x : Feed}

/-- An election of the frame `f` to which the roots were given: as long as it is not decided, they
voted on all subjects that are not decided. -/
structure Voted (slot : EventID → Slot) (V : Validators) (f : ℕ) (given : List EventID)
    (el : Election) : Prop where
  validators : el.validators = V
  frameToDecide : el.frameToDecide = f
  decided_mem : ∀ s vote, el.decidedRoots[s]? = some vote → s ∈ V.members
  votes : el.chooseAtropos = .ok none → ∀ b ∈ given, f < (slot b).frame → ∀ s ∈ V.members,
    el.decidedRoots[s]? = none → (el.votes[(⟨b, s⟩ : VoteID)]?).isSome

lemma voted_new (slot : EventID → Slot) (V : Validators) (f : ℕ) : (new V f).Voted slot V f [] :=
  ⟨rfl, rfl, by simp [new], by simp⟩

section

variable (h : el.Voted slot V f given)
include h

lemma Voted.votes_observed (hnone : el.chooseAtropos = .ok none)
    (hlater : f + 1 < (slot x.root).frame) (hx : x.Orderly observe slot V given)
    (hs : s ∈ el.undecided) :
    ∀ y ∈ x.observed observe slot, (el.votes[(⟨y.id, s⟩ : VoteID)]?).isSome := by
  intro y hy
  obtain ⟨hslot, hframe, -⟩ := hx.slots y hy
  obtain ⟨hmem, hundecided⟩ := (mem_undecided h.validators).mp hs
  exact h.votes hnone y.id (hx.given y hy) (by rw [← hslot]; omega) s hmem hundecided

lemma Voted.members_observed (hx : x.Orderly observe slot V given) :
    ∀ y ∈ x.observed observe slot, y.slot.validator ∈ el.validators.members := by
  intro y hy
  rw [h.validators]
  exact (hx.slots y hy).2.2

section

variable (hnone : el.chooseAtropos = .ok none)
include hnone

/-- A root votes on all subjects, unless the votes name two roots of one subject. -/
lemma Voted.casts (hframe : f < (slot x.root).frame)
    (hlater : f + 1 < (slot x.root).frame → x.Orderly observe slot V given ∧
      ((x.observed observe slot).map (·.slot.validator)).Nodup) :
    Reports (el.Casts x.root el.undecided) (el.undecided.foldlM
        (voteOn ⟨x.root, slot x.root⟩ (x.observed observe slot)) el) := by
  apply Gives.foldlM (fun done el' => el.Casts x.root done el') (casts_nil x.root el)
  intro done s rest el' hsplit hcasts
  have hs : s ∈ el.undecided := by simp [hsplit]
  have hnew : s ∉ done := by
    have hnodup := hsplit ▸ el.nodup_undecided
    exact fun hd => (List.nodup_append.mp hnodup).2.2 s hd s (by simp) rfl
  rw [voteOn, hcasts.frameToDecide, h.frameToDecide]
  split_ifs with hround
  · exact Gives.of_ok (hcasts.save s _)
  · obtain ⟨hx, hnodup⟩ := hlater (by simp only at hround; omega)
    have hvotes : ∀ y ∈ x.observed observe slot, (el'.votes[(⟨y.id, s⟩ : VoteID)]?).isSome := by
      intro y hy
      rw [hcasts.votes_of_ne y.id s (.inr hnew)]
      exact h.votes_observed hnone (by simp only at hround; omega) hx hs y hy
    have hmem : ∀ y ∈ x.observed observe slot, y.slot.validator ∈ el'.validators.members := by
      rw [hcasts.validators]
      exact h.members_observed hx
    have hquorum : el'.validators.quorum ≤ ∑ v ∈ ((x.observed observe slot).map
        (·.slot.validator)).toFinset, el'.validators.get v := by
      rw [hcasts.validators, h.validators]
      exact hx.quorum
    have hmajority := (majority_returned hmem hvotes hnodup hquorum).reports
    cases hvote : el'.majority (x.observed observe slot) s with
    | ok vote => exact Gives.of_ok (hcasts.save s vote)
    | error e => exact Gives.of_error (hmajority.error e hvote)

lemma Casts.voted_cons {r : EventID} (hcasts : el.Casts r el.undecided el') :
    el'.Voted slot V f (r :: given) where
  validators := hcasts.validators.trans h.validators
  frameToDecide := hcasts.frameToDecide.trans h.frameToDecide
  decided_mem s vote hvote := by
    by_cases hs : s ∈ el.undecided
    · exact ((mem_undecided h.validators).mp hs).1
    · exact h.decided_mem s vote (hcasts.decided_of_notMem s hs ▸ hvote)
  votes _ b hb hframe s hmem hundecided := by
    have hs : s ∈ el.undecided := by
      by_contra hs
      rw [hcasts.decided_of_notMem s hs] at hundecided
      exact hs ((mem_undecided h.validators).mpr ⟨hmem, hundecided⟩)
    by_cases hbr : b = r
    · rw [hbr]
      exact hcasts.voted s hs
    · rw [hcasts.votes_of_ne b s (.inl hbr)]
      exact h.votes hnone b ((List.mem_cons.mp hb).resolve_left hbr) hframe s hmem
        ((mem_undecided h.validators).mp hs).2

/-! ### Calls -/

lemma Voted.call_eq (hframe : f < (slot x.root).frame) :
    call observe slot el x = (el.undecided.foldlM
        (voteOn ⟨x.root, slot x.root⟩ (x.observed observe slot)) el).bind fun el' =>
          el'.chooseAtropos.bind fun res => .ok (res, el') := by
  have hnot := notDecidedRoots_eq (h.validators ▸ h.decided_mem)
  have hlt : ¬ (slot x.root).frame ≤ el.frameToDecide := by
    rw [h.frameToDecide]
    omega
  simp only [call, processRoot, hnone, hnot, hlt, if_false, bind, Except.bind, pure, Except.pure]

/-- A second root of a validator ends the call at the first subject: with an error if there is a name
for its text, and with a nil pointer otherwise. -/
lemma Voted.call_of_repeats
    (hlater : f + 1 < (slot x.root).frame) (hx : x.Orderly observe slot V given) {y : RootAndSlot}
    (hrepeats : RepeatsAt (x.observed observe slot) pre y) (hs : el.firstUndecided = some s) :
    (el.Speaks s (pre ++ [y]) → ∃ err, call observe slot el x = .error (.error err)) ∧
      (¬ el.Speaks s (pre ++ [y]) → call observe slot el x = .error (.fault .nilDereference)) := by
  obtain ⟨s', rest, hs', hsplit⟩ := exists_firstUndecided hnone
  obtain rfl : s = s' := Option.some.inj (hs.symm.trans hs')
  have hmem : s ∈ el.undecided := by simp [hsplit]
  have hround : ¬ (slot x.root).frame - el.frameToDecide = 1 := by
    rw [h.frameToDecide]
    omega
  obtain ⟨hyes, hno⟩ := foldlM_count_repeats (h.members_observed hx)
    (h.votes_observed hnone hlater hx hmem) hrepeats
  have hfail : ∀ e, (x.observed observe slot).foldlM (el.count s) el.newTally = .error e →
      call observe slot el x = .error e := by
    intro e he
    rw [h.call_eq hnone (by omega), hsplit, List.foldlM_cons]
    simp only [voteOn, hround, if_false, majority, he, bind, Except.bind, Except.map]
  refine ⟨fun hspeaks => ?_, fun hsilent => hfail _ (hno hsilent)⟩
  obtain ⟨err, herr⟩ := hyes hspeaks
  exact ⟨err, hfail _ herr⟩

end

/-- Any call ends with a vote or with an error of the election. -/
lemma Voted.call_reports (hlater : el.chooseAtropos = .ok none → f + 1 < (slot x.root).frame →
      x.Orderly observe slot V given ∧ ((x.observed observe slot).map (·.slot.validator)).Nodup) :
    Reports (fun r => r.2.Voted slot V f (x.root :: given)) (call observe slot el x) := by
  have hchoose := (chooseAmong_returned el el.validators.ids).reports
  cases hatropos : el.chooseAtropos with
  | error e =>
    have hcall : call observe slot el x = .error e := by
      simp only [call, processRoot, hatropos, bind, Except.bind]
    rw [hcall]
    exact Gives.of_error (hchoose.error e hatropos)
  | ok res =>
    cases res with
    | some res =>
      have hcall : call observe slot el x = .ok (some res, el) := by
        simp only [call, processRoot, hatropos, bind, Except.bind, pure, Except.pure]
      rw [hcall]
      refine Gives.of_ok ⟨h.validators, h.frameToDecide, h.decided_mem, fun hnone => ?_⟩
      cases hnone.symm.trans hatropos
    | none =>
      by_cases hframe : f < (slot x.root).frame
      · rw [h.call_eq hatropos hframe]
        apply (h.casts hatropos hframe (hlater hatropos)).bind
        intro el' hcasts
        apply Gives.bind (chooseAmong_returned el' el'.validators.ids).reports
        exact fun res _ => Gives.of_ok (hcasts.voted_cons h hatropos)
      · have hcall : call observe slot el x = .ok (none, el) := by
          simp only [call, processRoot, hatropos, bind, Except.bind, h.frameToDecide,
            Nat.not_lt.mp hframe, if_true, pure, Except.pure]
        rw [hcall]
        refine Gives.of_ok ⟨h.validators, h.frameToDecide, h.decided_mem, ?_⟩
        intro hnone b hb hbf
        rcases List.mem_cons.mp hb with rfl | hb
        · exact absurd hbf hframe
        · exact h.votes hnone b hb hbf

lemma Voted.of_call
    (hx : f + 1 < (slot x.root).frame → x.Orderly observe slot V given) {res : Option Res}
    (hcall : call observe slot el x = .ok (res, el')) : el'.Voted slot V f (x.root :: given) := by
  refine (h.call_reports fun hnone hlater => ⟨hx hlater, ?_⟩).ok _ hcall
  rcases nodup_or_repeats (x.observed observe slot) with hnodup | ⟨pre, y, hrepeats⟩
  · exact hnodup
  · obtain ⟨s, rest, hs, -⟩ := exists_firstUndecided hnone
    obtain ⟨hyes, hno⟩ := h.call_of_repeats hnone hlater (hx hlater) hrepeats hs
    by_cases hspeaks : el.Speaks s (pre ++ [y])
    · obtain ⟨err, herr⟩ := hyes hspeaks
      cases hcall.symm.trans herr
    · cases hcall.symm.trans (hno hspeaks)

end

lemma voted_processRoots {feeds : List Feed} {results : List (Option Res)}
    (h : el.Voted slot V f given) (hfeeds : OrderlyFeeds observe slot V f given feeds)
    (hrun : processRoots observe slot feeds el = .ok (results, el')) :
    el'.Voted slot V f ((feeds.map (·.root)).reverse ++ given) := by
  induction feeds generalizing el given results with
  | nil =>
    cases hrun
    exact h
  | cons x feeds ih =>
    obtain ⟨⟨res, el₁⟩, hcall, hrest⟩ := bind_eq_ok_iff.mp hrun
    obtain ⟨⟨results', el₂⟩, hruns, hpair⟩ := bind_eq_ok_iff.mp hrest
    cases hpair
    have := ih (h.of_call hfeeds.1 hcall) hfeeds.2 hruns
    simpa using this

/-- In the state after any orderly run, the next call is reported as it should be if and only if
there is a name for the text of its error. -/
theorem reported_iff {feeds : List Feed} {results : List (Option Res)}
    (hfeeds : OrderlyFeeds observe slot V f [] feeds)
    (hrun : processRoots observe slot feeds (new V f) = .ok (results, el))
    (hx : f + 1 < (slot x.root).frame →
      x.Orderly observe slot V ((feeds.map (·.root)).reverse)) :
    Reported observe slot el x ↔
      (el.chooseAtropos = .ok none → el.frameToDecide + 1 < (slot x.root).frame →
        el.Nameable (x.observed observe slot)) := by
  have h := voted_processRoots (voted_new slot V f) hfeeds hrun
  rw [List.append_nil] at h
  have hid : ∀ y y' : RootAndSlot, f + 1 < (slot x.root).frame → y ∈ x.observed observe slot →
      y' ∈ x.observed observe slot → (y.id ≠ y'.id ↔ y ≠ y') := by
    intro y y' hlater hy hy'
    have hslot := ((hx hlater).slots y hy).1
    have hslot' := ((hx hlater).slots y' hy').1
    cases y
    cases y'
    simp_all
  constructor
  · intro hreported hnone hlater pre y hrepeats s hs
    rw [h.frameToDecide] at hlater
    by_contra hsilent
    obtain ⟨y₁, h₁, y₂, h₂, hne, hval⟩ := hrepeats.exists_two (hx hlater).nodup
    obtain ⟨err, herr⟩ := hreported.error hnone (h.frameToDecide ▸ hlater)
      ⟨y₁, h₁, y₂, h₂, (hid y₁ y₂ hlater h₁ h₂).mpr hne, hval⟩
    cases herr.symm.trans ((h.call_of_repeats hnone hlater (hx hlater) hrepeats hs).2 hsilent)
  · intro hname
    have herror : el.chooseAtropos = .ok none → f + 1 < (slot x.root).frame → ∀ pre y,
        RepeatsAt (x.observed observe slot) pre y →
          ∃ err, call observe slot el x = .error (.error err) := by
      intro hnone hlater pre y hrepeats
      obtain ⟨s, rest, hs, -⟩ := exists_firstUndecided hnone
      exact (h.call_of_repeats hnone hlater (hx hlater) hrepeats hs).1
        (hname hnone (h.frameToDecide ▸ hlater) pre y hrepeats s hs)
    refine ⟨?_, ?_⟩
    · by_cases hrep : el.chooseAtropos = .ok none ∧ f + 1 < (slot x.root).frame ∧
          ∃ pre y, RepeatsAt (x.observed observe slot) pre y
      · obtain ⟨hnone, hlater, pre, y, hrepeats⟩ := hrep
        obtain ⟨err, herr⟩ := herror hnone hlater pre y hrepeats
        intro fault hfault
        cases herr.symm.trans hfault
      · apply returned_of_reports
        apply h.call_reports
        intro hnone hlater
        refine ⟨hx hlater, (nodup_or_repeats _).resolve_right fun hrepeats => ?_⟩
        exact hrep ⟨hnone, hlater, hrepeats⟩
    · rintro hnone hlater ⟨y₁, h₁, y₂, h₂, hne, hval⟩
      rw [h.frameToDecide] at hlater
      obtain ⟨pre, y, hrepeats⟩ :=
        exists_repeats h₁ h₂ ((hid y₁ y₂ hlater h₁ h₂).mp hne) hval
      exact herror hnone hlater pre y hrepeats

end Voted

/-! ### Two votes against -/

namespace Silent

/-- The root `10 * frame + validator`; the root 25 is the second one of the validator 2. -/
def slot (r : EventID) : Slot := ⟨r / 10, if r % 10 = 5 then 2 else r % 10⟩

/-- The roots of the frame 2 observe the roots of the validators 2, 3 and 4, and the root of the
frame 3 observes all of them. -/
def observe (a b : EventID) : Bool := (a / 10 = 2 && b ∈ [12, 13, 14]) || (a / 10 = 3 && b / 10 = 2)

/-- The call about a root, with all roots known. -/
def feed (r : EventID) : Feed where
  root := r
  frameRoots frame :=
    ([11, 12, 13, 14, 22, 25, 23, 24].filter fun b => b / 10 = frame).map fun b => ⟨b, slot b⟩

/-- The roots of the frames 1 and 2. -/
def feeds : List Feed := [11, 12, 13, 14, 22, 25, 23, 24].map feed

lemma orderly : OrderlyFeeds observe slot fourValidators 1 [] feeds ∧
    (feed 33).Orderly observe slot fourValidators ((feeds.map (·.root)).reverse) := by decide +kernel

lemma exists_run : ∃ results el, processRoots observe slot feeds (new fourValidators 1) =
    .ok (results, el) := by
  have hrun : (processRoots observe slot feeds (new fourValidators 1)).map (fun _ => ()) = .ok () := by
    decide +kernel
  obtain ⟨⟨results, el⟩, hrun, -⟩ := map_eq_ok_iff.mp hrun
  exact ⟨results, el, hrun⟩

theorem reported_iff_silent : ∃ results el,
    OrderlyFeeds observe slot fourValidators 1 [] feeds ∧
    processRoots observe slot feeds (new fourValidators 1) = .ok (results, el) ∧
    (Reported observe slot el (feed 33) ↔
      (el.chooseAtropos = .ok none → el.frameToDecide + 1 < (slot (feed 33).root).frame →
        el.Nameable ((feed 33).observed observe slot))) := by
  obtain ⟨results, el, hrun⟩ := exists_run
  exact ⟨results, el, orderly.1, hrun, reported_iff orderly.1 hrun fun _ => orderly.2⟩

/-- What the call about the root of the frame 3 does. -/
def outcome : Except Halt (Option Res) :=
  processRoots observe slot feeds (new fourValidators 1) >>= fun r =>
    (call observe slot r.2 (feed 33)).map Prod.fst

/-- Both roots of the validator 2 vote against the validator 1, and there is no name for the text of
the error. -/
theorem not_reported_silent : ∃ results el,
    OrderlyFeeds observe slot fourValidators 1 [] feeds ∧
    (feed 33).Orderly observe slot fourValidators ((feeds.map (·.root)).reverse) ∧
    processRoots observe slot feeds (new fourValidators 1) = .ok (results, el) ∧
    call observe slot el (feed 33) = .error (.fault .nilDereference) ∧
    ¬ Reported observe slot el (feed 33) := by
  obtain ⟨results, el, hrun⟩ := exists_run
  have houtcome : outcome = .error (.fault .nilDereference) := by decide +kernel
  rw [outcome, hrun] at houtcome
  have hmap : (call observe slot el (feed 33)).map Prod.fst = .error (.fault .nilDereference) :=
    houtcome
  have hcall : call observe slot el (feed 33) = .error (.fault .nilDereference) := by
    cases hcall : call observe slot el (feed 33) with
    | ok r =>
      rw [hcall] at hmap
      cases hmap
    | error e =>
      rw [hcall] at hmap
      cases hmap
      rfl
  exact ⟨results, el, orderly.1, orderly.2, hrun, hcall, fun h => h.returned _ hcall⟩

end Silent

end Election

end Lachesis
