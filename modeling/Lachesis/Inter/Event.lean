import Mathlib.Tactic.Linarith

/-!
# Events

The vertices of the graph, their identifiers and the indexes they carry. Indexes are natural
numbers; timestamps keep the width of the code. An identifier is read as the number its 32 bytes
write, most significant first, so that the byte order of identifiers is the order of numbers.

`Fault` lists the ways a node stops instead of returning.
-/

namespace Lachesis

/-- `idx.StakerID` -/
abbrev StakerID := ℕ
/-- `hash.Event`: 32 bytes as a number. -/
abbrev EventID := ℕ
/-- `common.Hash`: 32 bytes as a number. -/
abbrev Hash := ℕ
/-- `inter.Timestamp`: nanoseconds. -/
abbrev Timestamp := UInt64

/-- `hash.ZeroEvent` -/
def zeroEvent : EventID := 0

namespace EventID

/-- `Event.Epoch`: bytes 0 to 3 of an identifier. -/
def epoch (id : EventID) : ℕ := id / 2 ^ 224 % 2 ^ 32

/-- `Event.Lamport`: bytes 4 to 7 of an identifier. -/
def lamport (id : EventID) : ℕ := id / 2 ^ 192 % 2 ^ 32

end EventID

/-- The consensus fields of `inter.EventHeaderData`. -/
@[ext]
structure Event where
  epoch : ℕ
  seq : ℕ
  frame : ℕ
  isRoot : Bool
  creator : StakerID
  prevEpochHash : Hash
  parents : List EventID
  lamport : ℕ
  claimedTime : Timestamp
  medianTime : Timestamp
  /-- The last 24 bytes of the digest of all the header's fields. -/
  digest : BitVec 192
  deriving DecidableEq, Repr

namespace Event

/-- `EventHeaderData.Hash`: epoch, Lamport time, then the rest of the digest. -/
def hash (e : Event) : EventID :=
  e.epoch % 2 ^ 32 * 2 ^ 224 + e.lamport % 2 ^ 32 * 2 ^ 192 + e.digest.toNat

lemma epoch_hash {e : Event} (h : e.epoch < 2 ^ 32) : EventID.epoch e.hash = e.epoch := by
  have := e.digest.isLt
  unfold hash EventID.epoch
  omega

lemma lamport_hash {e : Event} (h : e.lamport < 2 ^ 32) : EventID.lamport e.hash = e.lamport := by
  have := e.digest.isLt
  unfold hash EventID.lamport
  omega

/-- `EventHeaderData.SelfParent` -/
def selfParent (e : Event) : Option EventID :=
  if e.seq ≤ 1 then none else e.parents.head?

/-- `EventHeaderData.IsSelfParent` -/
def isSelfParent (e : Event) (id : EventID) : Bool := e.selfParent = some id

lemma selfParent_mem {e : Event} {id : EventID} (h : e.selfParent = some id) : id ∈ e.parents := by
  unfold selfParent at h
  split_ifs at h
  exact List.mem_of_mem_head? (Option.mem_def.mpr h)

end Event

/-- The stored headers of one epoch by identifier. -/
abbrev GetEvent := EventID → Option Event

/-- `poset.EventSource` -/
abbrev EventSource := ℕ → GetEvent

/-- The events of a list by identifier. -/
def lookup (events : List Event) (id : EventID) : Option Event := events.find? (·.hash = id)

/-! ### Faults -/

/-- The messages with which the code calls `Log.Crit`, which ends the process. -/
inductive Crit
  | inconsistentBranches
  | inconsistentBranchesInfo
  | noBranchID
  | parentNotFound
  | eventANotFound
  | eventBNotFound
  | eventNotFound
  | walkFailed
  | medianTime
  | mismatchOfRoots
  | noVote
  | noQuorumOfVotes
  | electionFailed
  | inconsistentClock
  | noGenesis
  | buildingWithSkippedTxs
  | gasUsedAboveLimit
  | failedToPutRoot
  | incorrectRootKeyLen
  | invalidRootFrame
  deriving DecidableEq, Repr

/-- The ways a call ends without returning. -/
inductive Fault
  | crit (c : Crit)
  | indexOutOfRange
  | nilDereference
  /-- `panic` with a message. -/
  | panicked
  /-- Only of the model: a loop was given too few steps. -/
  | outOfFuel
  deriving DecidableEq, Repr

end Lachesis
