import Lachesis.Poset.Store

/-!
# Deciding a frame

A decided frame has an atropos. Its ancestors that no earlier frame has confirmed are marked and
reported, ordered into a block and handed to the application, which may seal the epoch.

The application is given by its callbacks, which may depend on all the calls made to them before:
the calls are recorded. The clock of the atropos is an argument: the node reads it from its index.
-/

namespace Lachesis

open Lachesis.Core Std

/-! ### The application -/

/-- A call of a callback. -/
inductive Call
  | applyBlock (block : Block) (decidedFrame : ℕ) (cheaters : List StakerID)
  | selectValidatorsGroup (oldEpoch newEpoch : ℕ)
  | onEventConfirmed (event : Event) (seqDepth : ℕ)
  | isEventAllowedIntoBlock (event : Event) (seqDepth : ℕ)
  deriving DecidableEq, Repr

/-- The block, the decided frame and the cheaters of a call of `ApplyBlock`. -/
def Call.applied : Call → Option (Block × ℕ × List StakerID)
  | .applyBlock block decidedFrame cheaters => some (block, decidedFrame, cheaters)
  | _ => none

/-- What was passed to `ApplyBlock`. -/
def appliedBlocks (calls : List Call) : List (Block × ℕ × List StakerID) :=
  calls.filterMap Call.applied

/-- `inter.ConsensusCallbacks`: what a callback returns depends on the calls made before. Those that
may be nil are optional; of `OnEventConfirmed`, which returns nothing, is known whether it is set. -/
structure ConsensusCallbacks where
  applyBlock : Option (List Call → Block → ℕ → List StakerID → Hash × Bool)
  selectValidatorsGroup : Option (List Call → ℕ → ℕ → Validators)
  onEventConfirmed : Bool
  isEventAllowedIntoBlock : Option (List Call → Event → ℕ → Bool)

/-- What a node is started with: the event checks' limit on parents, the stored events, the
callbacks and the hash functions. -/
structure Config where
  maxParents : ℕ
  input : EventSource
  callback : ConsensusCallbacks
  /-- `GenesisState.Hash` -/
  genesisHash : GenesisState → Hash
  /-- `hash.Of` of two hashes. -/
  hashOf : Hash → Hash → Hash

/-! ### Confirmation -/

section Walk

variable {σ : Type}

/-- One step of `Poset.dfsSubgraph`: the parents to push, if the filter accepts the event. -/
def dfsStep (getEvent : GetEvent) (filter : Event → σ → Except Fault (Bool × σ))
    (s : σ) (walk : EventID) : Except Fault (σ × List EventID) :=
  match getEvent walk with
  | none => .error (.crit .walkFailed)
  | some event =>
    match filter event s with
    | .error fault => .error fault
    | .ok (false, s) => .ok (s, [])
    | .ok (true, s) => .ok (s, event.parents)

/-- `Poset.dfsSubgraph`, popping at most `fuel` events. -/
def dfsSubgraph (getEvent : GetEvent) (fuel : ℕ) (head : EventID)
    (filter : Event → σ → Except Fault (Bool × σ)) (s : σ) : Except Fault σ :=
  walk .outOfFuel (dfsStep getEvent filter) fuel [head] s

/-- The filter of `confirmEvents`: an event that is not confirmed yet is marked and reported. -/
def confirmEvent (frame : ℕ) (onEventConfirmed : Event → σ → Except Fault σ) (e : Event)
    (s : Marks × σ) : Except Fault (Bool × (Marks × σ)) :=
  if s.1.confirmedOn e.hash ≠ 0 then .ok (false, s)
  else (onEventConfirmed e s.2).map fun t => (true, (s.1.set e.hash frame, t))

/-- `Poset.confirmEvents` -/
def confirmEvents (getEvent : GetEvent) (fuel frame : ℕ) (atropos : EventID)
    (onEventConfirmed : Event → σ → Except Fault σ) (s : Marks × σ) : Except Fault (Marks × σ) :=
  dfsSubgraph getEvent fuel atropos (confirmEvent frame onEventConfirmed) s

end Walk

/-! ### Blocks -/

/-- `math.MaxInt32` -/
def maxInt32 : ℕ := 2147483647

/-- The variables of `confirmBlock` that the report of an event changes, and the calls made. -/
structure Confirming where
  highestLamport : ℕ
  lowestLamport : ℕ
  blockEvents : List Event
  calls : List Call
  deriving DecidableEq, Repr

/-- Whether the application lets the event into the block, and the calls after asking. -/
def Config.isEventAllowedIntoBlock (cfg : Config) (calls : List Call) (e : Event) (seqDepth : ℕ) :
    Bool × List Call :=
  match cfg.callback.isEventAllowedIntoBlock with
  | none => (true, calls)
  | some allowed => (allowed calls e seqDepth, calls ++ [.isEventAllowedIntoBlock e seqDepth])

/-- The calls after telling the application that the event is confirmed. -/
def Config.onEventConfirmed (cfg : Config) (calls : List Call) (e : Event) (seqDepth : ℕ) :
    List Call :=
  if cfg.callback.onEventConfirmed then calls ++ [.onEventConfirmed e seqDepth] else calls

/-- What `confirmBlock` does with a confirmed event. -/
def onConfirmed (cfg : Config) (V : Validators) (atroposHighestBefore : ℕ → BranchSeq) (e : Event)
    (s : Confirming) : Except Fault Confirming :=
  let creatorHighest := atroposHighestBefore (V.getIdx e.creator)
  let fromCheater := creatorHighest.isForkDetected
  let seqDepth := if creatorHighest.seq < e.seq then maxInt32 else creatorHighest.seq - e.seq
  let asked := cfg.isEventAllowedIntoBlock s.calls e seqDepth
  if !fromCheater && creatorHighest.seq < e.seq then .error (.crit .inconsistentClock)
  else .ok
    { highestLamport :=
        if s.highestLamport = 0 ∨ s.highestLamport < e.lamport then e.lamport
        else s.highestLamport
      lowestLamport :=
        if s.lowestLamport = 0 ∨ e.lamport < s.lowestLamport then e.lamport else s.lowestLamport
      blockEvents := if !fromCheater && asked.1 then s.blockEvents ++ [e] else s.blockEvents
      calls := cfg.onEventConfirmed asked.2 e seqDepth }

/-- The order of `fareOrdering`: by Lamport time, then by hash. -/
def fareLe (a b : Event) : Bool :=
  if a.lamport ≠ b.lamport then a.lamport ≤ b.lamport else a.hash ≤ b.hash

/-- `Poset.fareOrdering` -/
def fareOrdering (unordered : List Event) : List EventID :=
  (unordered.insertionSort fun a b => fareLe a b).map Event.hash

/-- `Poset.fareTimestamps`, given the consensus time of the frame before and the median time of the
atropos. -/
def fareTimestamps (lastConsensusTime nowMedianTime : Timestamp)
    (highestLamport lowestLamport : ℕ) : FrameInfo :=
  let frameLamportPeriod :=
    max (UInt32.ofNat highestLamport - UInt32.ofNat lowestLamport + 1) 1
  let frameTimePeriod : Timestamp :=
    if nowMedianTime < lastConsensusTime then 1 else max (nowMedianTime - lastConsensusTime) 1
  let timeRatio := max (frameTimePeriod / frameLamportPeriod.toUInt64) 1
  let lowestConsensusTime := lastConsensusTime + timeRatio
  let timeOffset :=
    lowestConsensusTime.toInt64 - Int64.ofNat lowestLamport * timeRatio.toInt64
  { timeOffset
    timeRatio
    lastConsensusTime := (Int64.ofNat highestLamport * timeRatio.toInt64 + timeOffset).toUInt64 }

/-- The cheaters that the atropos observes, in the order of the validators. -/
def cheatersOf (V : Validators) (atroposHighestBefore : ℕ → BranchSeq) : List StakerID :=
  (V.ids.zipIdx.filter fun (_, creatorIdx) =>
    (atroposHighestBefore creatorIdx).isForkDetected).map (·.1)

/-! ### The chain -/

/-- What decided frames change: the main database, the checkpoint and the epoch that are kept in
memory, and the calls made to the application. -/
structure Chain where
  main : MainTables
  checkpoint : Checkpoint
  epochState : EpochState
  calls : List Call

namespace Chain

/-- `Poset.saveCheckpoint` -/
def saveCheckpoint (c : Chain) : Chain :=
  { c with main := { c.main with checkpoint := some c.checkpoint } }

/-- `Store.GetFrameInfo` -/
def frameInfo (c : Chain) (epoch frame : ℕ) : Option FrameInfo :=
  c.main.frameInfos[(⟨epoch, frame⟩ : FrameKey)]?

/-- `Poset.frameConsensusTime` -/
def frameConsensusTime (c : Chain) (frame : ℕ) : Except Fault Timestamp :=
  if frame = 0 then .ok c.epochState.prevEpoch.time
  else match c.frameInfo c.epochState.epochN frame with
    | none => .error .nilDereference
    | some info => .ok info.lastConsensusTime

/-- `Poset.GetConsensusTime`; no time for an event that is not confirmed. -/
def getConsensusTime (c : Chain) (id : EventID) : Except Fault (Option Timestamp) :=
  let f := c.main.confirmedEvent.confirmedOn id
  if f = 0 then .ok none
  else match c.frameInfo id.epoch f with
    | none => .error .nilDereference
    | some info => .ok (some (info.calcConsensusTime id.lamport))

/-- `Poset.confirmBlock`: the block, the cheaters and the chain with the frame confirmed. -/
def confirmBlock (cfg : Config) (fuel : ℕ) (atroposHighestBefore : ℕ → BranchSeq) (frame : ℕ)
    (atropos : EventID) (c : Chain) : Except Fault (Block × List StakerID × Chain) := do
  let getEvent := cfg.input c.epochState.epochN
  let V := c.epochState.validators
  let (marks, confirming) ← confirmEvents getEvent fuel frame atropos
    (onConfirmed cfg V atroposHighestBefore) (c.main.confirmedEvent, ⟨0, 0, [], c.calls⟩)
  let lastConsensusTime ← c.frameConsensusTime (frame - 1)
  match getEvent atropos with
  | none => .error .nilDereference
  | some header =>
    let info := fareTimestamps lastConsensusTime header.medianTime confirming.highestLamport
      confirming.lowestLamport
    let block :=
      { index := c.checkpoint.lastBlockN + 1
        time := info.lastConsensusTime
        atropos
        prevHash := c.checkpoint.lastAtropos
        events := fareOrdering confirming.blockEvents }
    let frameInfos := c.main.frameInfos.insert ⟨c.epochState.epochN, frame⟩ info
    return (block, cheatersOf V atroposHighestBefore,
      { c with
        main := { c.main with confirmedEvent := marks, frameInfos }
        calls := confirming.calls })

/-- The validators of the next epoch, and the calls after asking for them. -/
def nextValidators (cfg : Config) (c : Chain) : Validators × List Call :=
  let oldEpoch := c.epochState.epochN
  match cfg.callback.selectValidatorsGroup with
  | none => (c.epochState.validators, c.calls)
  | some select =>
    (select c.calls oldEpoch (oldEpoch + 1),
      c.calls ++ [.selectValidatorsGroup oldEpoch (oldEpoch + 1)])

/-- `Poset.sealEpoch`, the part that concerns the chain. -/
def sealEpoch (cfg : Config) (c : Chain) : Except Fault Chain := do
  let time ← c.frameConsensusTime c.checkpoint.lastDecidedFrame
  let (validators, calls) := c.nextValidators cfg
  let epochState : EpochState :=
    { epochN := c.epochState.epochN + 1
      prevEpoch :=
        { epoch := c.epochState.epochN
          time
          lastAtropos := c.checkpoint.lastAtropos
          appHash := c.checkpoint.appHash }
      validators }
  return saveCheckpoint
    { main := { c.main with epoch := some epochState }
      checkpoint := { c.checkpoint with lastDecidedFrame := 0 }
      epochState
      calls }

/-- The call of `ApplyBlock`: whether to seal the epoch, and the chain after it. -/
def applyBlock (cfg : Config) (block : Block) (frame : ℕ) (cheaters : List StakerID) (c : Chain) :
    Bool × Chain :=
  match cfg.callback.applyBlock with
  | none => (false, c)
  | some apply =>
    let (appHash, sealed) := apply c.calls block frame cheaters
    (sealed,
      { c with
        checkpoint := { c.checkpoint with appHash := cfg.hashOf c.checkpoint.appHash appHash }
        calls := c.calls ++ [.applyBlock block frame cheaters] })

/-- The end of `onFrameDecided`: the block is applied and the checkpoint saved, and the epoch is
sealed if the application says so. -/
def finishFrame (cfg : Config) (frame : ℕ) (atropos : EventID) (block : Block)
    (cheaters : List StakerID) (c : Chain) : Except Fault (Bool × Chain) :=
  match applyBlock cfg block frame cheaters
    { c with checkpoint := { c.checkpoint with lastBlockN := c.checkpoint.lastBlockN + 1 } } with
  | (sealed, c) =>
    let c := saveCheckpoint { c with checkpoint := { c.checkpoint with lastAtropos := atropos } }
    if sealed then (c.sealEpoch cfg).map (true, ·) else .ok (false, c)

/-- `Poset.onFrameDecided`, the part that concerns the chain: whether the epoch is sealed. -/
def onFrameDecided (cfg : Config) (fuel : ℕ) (atroposHighestBefore : ℕ → BranchSeq) (frame : ℕ)
    (atropos : EventID) (c : Chain) : Except Fault (Bool × Chain) :=
  match confirmBlock cfg fuel atroposHighestBefore frame atropos
    { c with checkpoint := { c.checkpoint with lastDecidedFrame := frame } } with
  | .error fault => .error fault
  | .ok (block, cheaters, c) => finishFrame cfg frame atropos block cheaters c

end Chain

end Lachesis
