import Lachesis.Inter.Pos

/-!
# Election of an atropos

The roots of the frames after `frameToDecide` vote on the validators' roots of that frame. A root of
the next frame votes by what it observes, later ones by the majority of the votes of the roots they
observe. The decided validators are gone through in the order of the validators, and the first one
decided with yes gives the atropos.

The roots that the new root observes are an argument: the node finds them through its caches.
-/

namespace Lachesis

open Std

/-- `election.Slot` -/
structure Slot where
  frame : ℕ
  validator : StakerID
  deriving DecidableEq, Repr

/-- `election.RootAndSlot` -/
structure RootAndSlot where
  id : EventID
  slot : Slot
  deriving DecidableEq, Repr

/-- `election.Res` -/
@[ext]
structure Res where
  frame : ℕ
  atropos : EventID
  deriving DecidableEq, Repr

/-- `voteID` -/
@[ext]
structure VoteID where
  fromRoot : EventID
  forValidator : StakerID
  deriving DecidableEq, Repr

namespace VoteID

instance : Ord VoteID := ⟨compareLex (compareOn fromRoot) (compareOn forValidator)⟩

instance : TransOrd VoteID :=
  inferInstanceAs (TransCmp (compareLex (compareOn fromRoot) (compareOn forValidator)))

instance : LawfulEqOrd VoteID where
  eq_of_compare {a b} h := by
    have h' : compareLex (compareOn fromRoot) (compareOn forValidator) a b = .eq := h
    simp only [compareLex_eq_eq, compareOn, Std.compare_eq_iff_eq] at h'
    exact VoteID.ext h'.1 h'.2

end VoteID

/-- `voteValue` -/
structure VoteValue where
  decided : Bool
  yes : Bool
  observedRoot : EventID
  deriving DecidableEq, Repr

/-- The errors of `ProcessRoot`. -/
inductive ElectionErr
  /-- Two votes for yes name different roots of the subject: `forkless caused by 2 fork roots => more
  than 1/3W are Byzantine`. -/
  | twoSubjects (subject other : EventID) (frame : ℕ) (validator : StakerID)
  /-- Two votes come from roots of one slot; the message is the same, with one root. -/
  | twoVoters (subject : EventID) (frame : ℕ) (validator : StakerID)
  /-- `All the roots are decided as 'no', which is possible only if more than 1/3W are Byzantine` -/
  | allNo
  deriving DecidableEq, Repr

/-- The ways `ProcessRoot` does not return a result. -/
inductive Halt
  | error (err : ElectionErr)
  | fault (fault : Fault)
  deriving DecidableEq, Repr

/-- A call made by `ProcessRoot`. -/
def Halt.ofFault {α : Type} : Except Fault α → Except Halt α
  | .ok a => .ok a
  | .error f => .error (.fault f)

/-- `election.Election` -/
structure Election where
  frameToDecide : ℕ
  validators : Validators
  decidedRoots : ExtTreeMap StakerID VoteValue
  votes : ExtTreeMap VoteID VoteValue

namespace Election

/-- `election.New` and `Election.Reset` -/
def new (V : Validators) (frameToDecide : ℕ) : Election := ⟨frameToDecide, V, ∅, ∅⟩

def notDecidedRoots (el : Election) : Except Halt (List StakerID) :=
  let notDecided := el.validators.ids.filter fun v => el.decidedRoots[v]?.isNone
  if notDecided.length + el.decidedRoots.size ≠ el.validators.len then
    .error (.fault (.crit .mismatchOfRoots))
  else .ok notDecided

/-- The loop of `Election.chooseAtropos`. -/
def chooseAmong (el : Election) : List StakerID → Except Halt (Option Res)
  | [] => .error (.error .allNo)
  | validator :: rest =>
    match el.decidedRoots[validator]? with
    | none => .ok none
    | some vote =>
      if vote.yes then .ok (some ⟨el.frameToDecide, vote.observedRoot⟩) else el.chooseAmong rest

def chooseAtropos (el : Election) : Except Halt (Option Res) := el.chooseAmong el.validators.ids

def observedRoots (observe : EventID → EventID → Bool) (frameRoots : List RootAndSlot)
    (root : EventID) : List RootAndSlot :=
  frameRoots.filter fun frameRoot => observe root frameRoot.id

/-! ### One subject -/

/-- The counters of `ProcessRoot` for one subject. -/
structure Tally where
  yesVotes : StakeCounter
  noVotes : StakeCounter
  allVotes : StakeCounter
  subjectHash : Option EventID

/-- The counters before the first vote. -/
def newTally (el : Election) : Tally :=
  ⟨el.validators.newCounter, el.validators.newCounter, el.validators.newCounter, none⟩

/-- Count the vote on its side. -/
def Tally.side (t : Tally) (voter : StakerID) (vote : VoteValue) : Except Fault Tally :=
  if vote.yes then
    (t.yesVotes.count voter).map fun r =>
      { t with yesVotes := r.2, subjectHash := some vote.observedRoot }
  else (t.noVotes.count voter).map fun r => { t with noVotes := r.2 }

/-- Count the vote of one observed root for the subject. -/
def count (el : Election) (subject : StakerID) (t : Tally) (observedRoot : RootAndSlot) :
    Except Halt Tally :=
  match el.votes[(⟨observedRoot.id, subject⟩ : VoteID)]? with
  | none => .error (.fault (.crit .noVote))
  | some vote =>
    match t.subjectHash.filter fun hash => vote.yes && hash ≠ vote.observedRoot with
    | some hash =>
      .error (.error (.twoSubjects hash vote.observedRoot el.frameToDecide subject))
    | none => do
      let t ← Halt.ofFault (t.side observedRoot.slot.validator vote)
      let counted ← Halt.ofFault (t.allVotes.count observedRoot.slot.validator)
      if counted.1 then return { t with allVotes := counted.2 }
      else match t.subjectHash with
        | none => .error (.fault .nilDereference)
        | some hash => .error (.error (.twoVoters hash el.frameToDecide subject))

/-- The vote of a root that observes `observed`, by majority. -/
def majority (el : Election) (observed : List RootAndSlot) (subject : StakerID) :
    Except Halt VoteValue := do
  let t ← observed.foldlM (el.count subject) el.newTally
  if !t.allVotes.hasQuorum then .error (.fault (.crit .noQuorumOfVotes))
  else
    let yes : Bool := t.noVotes.sum ≤ t.yesVotes.sum
    return { decided := t.yesVotes.hasQuorum || t.noVotes.hasQuorum
             yes
             observedRoot := if yes then t.subjectHash.getD zeroEvent else zeroEvent }

/-- The vote of a root of the first round, by `observedRootsMap`: of two roots of one validator the
last one counts. -/
def firstVote (observed : List RootAndSlot) (subject : StakerID) : VoteValue :=
  match (observed.filter fun root => root.slot.validator = subject).getLast? with
  | some root => ⟨false, true, root.id⟩
  | none => ⟨false, false, zeroEvent⟩

/-- Keep the vote, and the decision if it is one. -/
def save (el : Election) (root : EventID) (subject : StakerID) (vote : VoteValue) : Election where
  frameToDecide := el.frameToDecide
  validators := el.validators
  decidedRoots :=
    if vote.decided then el.decidedRoots.insert subject vote else el.decidedRoots
  votes := el.votes.insert ⟨root, subject⟩ vote

/-- One subject in `ProcessRoot`. -/
def voteOn (newRoot : RootAndSlot) (observed : List RootAndSlot) (el : Election)
    (subject : StakerID) : Except Halt Election :=
  if newRoot.slot.frame - el.frameToDecide = 1 then
    .ok (el.save newRoot.id subject (firstVote observed subject))
  else (el.majority observed subject).map (el.save newRoot.id subject)

/-! ### A new root -/

/-- Whether `ProcessRoot` asks for the roots that the new root observes. -/
def asks (el : Election) (newRoot : RootAndSlot) : Bool :=
  el.chooseAtropos = .ok none && el.frameToDecide < newRoot.slot.frame

/-- `Election.ProcessRoot`, given the roots of the previous frame that the new root observes. An
error leaves no state behind: the node stops at it. -/
def processRoot (el : Election) (newRoot : RootAndSlot) (observed : List RootAndSlot) :
    Except Halt (Option Res × Election) := do
  match ← el.chooseAtropos with
  | some res => return (some res, el)
  | none =>
    if newRoot.slot.frame ≤ el.frameToDecide then return (none, el)
    else
      let notDecided ← el.notDecidedRoots
      let el ← notDecided.foldlM (voteOn newRoot observed) el
      return (← el.chooseAtropos, el)

end Election

end Lachesis
