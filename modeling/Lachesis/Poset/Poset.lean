import Lachesis.Eventcheck
import Lachesis.Poset.FrameDecide

/-!
# The consensus engine

A node takes one event at a time. It checks the fields of the event that depend on consensus, adds
the event to its index, and lets a new root vote. When a frame is decided the election starts over
with the next frame and the known roots are processed again, until no frame can be decided or the
epoch is sealed. A node that is started over a store rebuilds the election in the same way.

The vector index is written through to the database of the epoch, so the flushed part of the index
is what the database holds.
-/

namespace Lachesis

open Lachesis.Core Std

/-- The caches of a node. -/
structure PosetCaches where
  vec : VecCaches
  frameRoots : Cache ℕ (List RootAndSlot)

/-- `poset.Poset` with its store. The database of the current epoch is open: its tables are those of
`roots` and `vecClock`; `epochDbs` are the other ones. -/
structure Poset (C : PosetCaches) where
  chain : Chain
  epochDbs : ExtTreeMap ℕ EpochDb
  roots : RootsTable C.frameRoots
  election : Election
  vecClock : Index C.vec

abbrev PosetM (C : PosetCaches) := StateT (Poset C) (Except Fault)

/-- The errors of `ProcessEvent`. -/
inductive ProcessErr
  | epochcheck (err : Epochcheck.Err)
  /-- `mismatched prev epoch hash` -/
  | wrongEpochHash
  /-- `prev epoch hash isn't zero for non-first event` -/
  | nonZeroEpochHash
  /-- `Cheaters observed by self-parent aren't allowed as parents` -/
  | cheatersObserved
  /-- `Claimed frame mismatched with calculated` -/
  | wrongFrame
  /-- `Claimed isRoot mismatched with calculated` -/
  | wrongIsRoot
  /-- `Claimed medianTime mismatched with calculated` -/
  | wrongMedianTime
  deriving DecidableEq, Repr

namespace Poset

variable {C : PosetCaches}

abbrev epochState (p : Poset C) : EpochState := p.chain.epochState

/-- A call of the vector index. -/
def index {α : Type} (m : IndexM C.vec α) : PosetM C α :=
  zoom (fun p => p.vecClock) (fun vi p => { p with vecClock := vi }) m

/-- `Store.GetFrameRoots` -/
def getFrameRoots (f : ℕ) : PosetM C (List RootAndSlot) := fun p =>
  let r := p.roots.getFrameRoots f
  .ok (r.1, { p with roots := r.2 })

def rootRecord (e : Event) : RootAndSlot := ⟨e.hash, ⟨e.frame, e.creator⟩⟩

/-! ### Frames -/

/-- The loop of `forklessCausedByQuorumOn`, which ends as soon as there is a quorum. -/
def countCaused (id : EventID) : List RootAndSlot → StakeCounter → PosetM C StakeCounter
  | [], observedCounter => pure observedCounter
  | it :: rest, observedCounter => do
    let caused ← index (Index.forklessCause id it.id)
    let observedCounter ← liftM (if caused then
      (observedCounter.count it.slot.validator).map (·.2) else .ok observedCounter)
    if observedCounter.hasQuorum then return observedCounter
    else countCaused id rest observedCounter

def forklessCausedByQuorumOn (e : Event) (f : ℕ) : PosetM C Bool := do
  let V := (← get).epochState.validators
  let frameRoots ← getFrameRoots f
  let observedCounter ← countCaused e.hash frameRoots V.newCounter
  return observedCounter.hasQuorum

/-- One parent in the loop of `calcFrameIdx`. -/
def parentFrame (getEvent : GetEvent) (e : Event) (frame : ℕ) (parent : EventID) : Except Fault ℕ :=
  match getEvent parent with
  | none => .error .nilDereference
  | some header => .ok (if e.isSelfParent parent then header.frame else frame)

/-- The frame of the self-parent, zero without one; the headers of all parents are read. -/
def selfParentFrame (getEvent : GetEvent) (e : Event) : Except Fault ℕ :=
  e.parents.foldlM (parentFrame getEvent e) 0

/-- The root conditions that `calcFrameIdx` checks for an event that claims to be a root. -/
def checkRoot (e : Event) (selfParentFrame : ℕ) : PosetM C Bool :=
  if e.frame ≠ selfParentFrame + 1 then pure false
  else if e.frame ≤ 1 then pure true
  else forklessCausedByQuorumOn e (e.frame - 1)

def calcFrameIdx (cfg : Config) (e : Event) (checkOnly : Bool) : PosetM C (ℕ × Bool) := do
  if e.parents.isEmpty then return (1, true)
  else
    let frame ← liftM (selfParentFrame (cfg.input (← get).epochState.epochN) e)
    if checkOnly then
      if !e.isRoot then return (frame, false)
      else return (frame + 1, ← checkRoot e frame)
    else if e.selfParent.isNone then return (1, true)
    else if ← forklessCausedByQuorumOn e frame then return (frame + 1, true)
    else return (frame, false)

/-! ### Checks -/

/-- The checks of `checkAndSaveEvent` that are made after the event was added to the index. -/
def checkAdded (cfg : Config) (e : Event) : PosetM C (Option ProcessErr) := do
  let calculated ← calcFrameIdx cfg e true
  if e.isRoot ≠ calculated.2 then return some .wrongIsRoot
  else if e.frame ≠ calculated.1 then return some .wrongFrame
  else
    let medianTime ← index (Index.medianTime e.hash (← get).epochState.prevEpoch.time)
    if e.medianTime ≠ medianTime then return some .wrongMedianTime else return none

/-- `Store.AddRoot` -/
def addRoot (e : Event) : PosetM C Unit :=
  modify fun p => { p with roots := p.roots.addRoot (rootRecord e) }

/-- The end of `checkAndSaveEvent`: an event that passed is flushed, and a root is stored. -/
def saveEvent (e : Event) : PosetM C Unit := do
  index Index.flush
  if e.isRoot then addRoot e

/-- `checkAndSaveEvent` from where the event is added to the index; what is not flushed is dropped
in the end. -/
def addAndCheck (cfg : Config) (e : Event) : PosetM C (Option ProcessErr) := do
  index (Index.add e)
  let err ← checkAdded cfg e
  if err.isNone then saveEvent e
  index Index.dropNotFlushed
  return err

def checkAndSaveEvent (cfg : Config) (e : Event) : PosetM C (Option ProcessErr) := do
  let prevEpoch := (← get).epochState.prevEpoch
  if e.seq ≤ 1 ∧ e.prevEpochHash ≠ cfg.genesisHash prevEpoch then return some .wrongEpochHash
  else if 1 < e.seq ∧ e.prevEpochHash ≠ 0 then return some .nonZeroEpochHash
  else
    let noCheaters ← index (Index.noCheaters e.selfParent e.parents)
    if noCheaters.length ≠ e.parents.length then return some .cheatersObserved
    else addAndCheck cfg e

/-- `Poset.Prepare`: the event with its consensus fields filled, or nothing if it should be dropped.
The hash of the event is not computed again, so the index knows the event under the old one. -/
def prepare (cfg : Config) (e : Event) : PosetM C (Option Event) := do
  let es := (← get).epochState
  match Epochcheck.validate es.validators es.epochN e with
  | some _ => return none
  | none =>
    index (Index.add e)
    let (frame, isRoot) ← calcFrameIdx cfg e false
    let medianTime ← index (Index.medianTime e.hash es.prevEpoch.time)
    index Index.dropNotFlushed
    return some { e with
      frame, isRoot, medianTime
      prevEpochHash := if e.seq ≤ 1 then cfg.genesisHash es.prevEpoch else 0 }

/-! ### The election -/

/-- The roots of the list that the root observes. -/
def observing (root : EventID) : List RootAndSlot → PosetM C (List RootAndSlot)
  | [] => pure []
  | it :: rest => do
    let caused ← index (Index.forklessCause root it.id)
    let observed ← observing root rest
    return if caused then it :: observed else observed

/-- `Election.observedRoots` on the node's store and index. -/
def observedRoots (root : RootAndSlot) : PosetM C (List RootAndSlot) := do
  let frameRoots ← getFrameRoots (root.slot.frame - 1)
  observing root.id frameRoots

/-- The outcome of `ProcessRoot`: an error of the election ends the process. -/
def vote (root : RootAndSlot) (observed : List RootAndSlot) : PosetM C (Option Res) := fun p =>
  match p.election.processRoot root observed with
  | .ok (res, election) => .ok (res, { p with election })
  | .error (.error _) => .error (.crit .electionFailed)
  | .error (.fault fault) => .error fault

def processRoot (root : RootAndSlot) : PosetM C (Option Res) := do
  if (← get).election.asks root then vote root (← observedRoots root) else vote root []

/-- The loop over the roots of one frame in `processKnownRoots`, which ends at a decision. -/
def processRoots : List RootAndSlot → PosetM C (Option Res)
  | [] => pure none
  | it :: rest => do
    match ← processRoot it with
    | some decided => return some decided
    | none => processRoots rest

/-- The loop over the frames in `processKnownRoots`, for at most `fuel` frames. -/
def processFrames : (fuel : ℕ) → (f : ℕ) → PosetM C (Option Res)
  | 0, _ => throw .outOfFuel
  | fuel + 1, f => do
    let frameRoots ← getFrameRoots f
    match ← processRoots frameRoots with
    | some decided => return some decided
    | none => if frameRoots.isEmpty then return none else processFrames fuel (f + 1)

/-- `Poset.processKnownRoots`; there are no more frames than roots. -/
def processKnownRoots : PosetM C (Option Res) := do
  let p ← get
  processFrames (p.roots.records.size + 1) (p.chain.checkpoint.lastDecidedFrame + 1)

/-! ### Decided frames -/

/-- The engine at the beginning of the epoch of its chain: `RecreateEpochDb`, which leaves the
previous database to be dropped, and the resets of `sealEpoch`. -/
def recreateEpochDb (cfg : Config) : PosetM C Unit :=
  modify fun p =>
    let n := p.epochState.epochN
    let V := p.epochState.validators
    let db := p.epochDbs[n]?.getD .empty
    { p with
      epochDbs := p.epochDbs.erase n
      roots := .wrap db.roots
      election := .new V 1
      vecClock := .new V db.vectorIndex (cfg.input n) }

/-- No walk from an atropos pops more than this. -/
def walkBound (p : Poset C) : ℕ :=
  1 + (p.vecClock.storedEvents.map p.vecClock.parentsLength).sum

def onFrameDecided (cfg : Config) (decided : Res) : PosetM C Bool := do
  modify fun p => { p with election := .new p.epochState.validators (decided.frame + 1) }
  let highest ← index (Index.getHighestBeforeMerged decided.atropos)
  let p ← get
  let (sealed, chain) ← liftM (p.chain.onFrameDecided cfg p.walkBound
    (highest.getD (.new 0)).get decided.frame decided.atropos)
  modify fun p => { p with chain }
  if sealed then recreateEpochDb cfg
  return sealed

/-- The last loop of `handleElection`, for at most `fuel` frames. -/
def electKnownRoots (cfg : Config) : (fuel : ℕ) → PosetM C Unit
  | 0 => throw .outOfFuel
  | fuel + 1 => do
    match ← processKnownRoots with
    | none => return ()
    | some decided =>
      if ← onFrameDecided cfg decided then return () else electKnownRoots cfg fuel

/-- `handleElection` once a root has decided a frame, or without a root: there are no more frames to
decide than roots. -/
def reelect (cfg : Config) : PosetM C Unit := do
  electKnownRoots cfg ((← get).roots.records.size + 1)

/-- `Poset.handleElection` of a new event. -/
def handleElection (cfg : Config) (e : Event) : PosetM C Unit := do
  if !e.isRoot then return ()
  else match ← processRoot (rootRecord e) with
    | none => return ()
    | some decided =>
      if ← onFrameDecided cfg decided then return () else reelect cfg

def processEvent (cfg : Config) (e : Event) : PosetM C (Option ProcessErr) := do
  let es := (← get).epochState
  match Epochcheck.validate es.validators es.epochN e with
  | some err => return some (.epochcheck err)
  | none =>
    match ← checkAndSaveEvent cfg e with
    | some err => return some err
    | none =>
      handleElection cfg e
      return none

/-- `ProcessEvent` of one event after the other. -/
def processEvents (cfg : Config) (events : List Event) : PosetM C (List (Option ProcessErr)) :=
  events.mapM (processEvent cfg)

/-! ### Starting a node -/

/-- What a stopped node leaves behind. -/
def disk (p : Poset C) : Disk where
  main := p.chain.main
  epochDbs := p.epochDbs.insert p.epochState.epochN ⟨p.roots.records, p.vecClock.persisted⟩

/-- `loadEpoch` and what `Bootstrap` makes of the store before it calls `handleElection`. -/
def load (cfg : Config) (disk : Disk) (calls : List Call) (checkpoint : Checkpoint)
    (es : EpochState) : Poset C :=
  let db := disk.epochDbs[es.epochN]?.getD .empty
  { chain := ⟨disk.main, checkpoint, es, calls⟩
    epochDbs := (disk.epochDbs.erase (es.epochN - 1)).erase es.epochN
    roots := .wrap db.roots
    election := .new es.validators (checkpoint.lastDecidedFrame + 1)
    vecClock := .new es.validators db.vectorIndex (cfg.input es.epochN) }

/-- `New` and `Bootstrap` over a store, when the application has got `calls` before. -/
def bootstrap (cfg : Config) (disk : Disk) (calls : List Call) : Except Fault (Poset C) :=
  match disk.main.checkpoint, disk.main.epoch with
  | none, _ => .error (.crit .noGenesis)
  | _, none => .error .nilDereference
  | some checkpoint, some es => ((reelect cfg).run (load cfg disk calls checkpoint es)).map (·.2)

/-- A node started over a store and given events. -/
def run (cfg : Config) (disk : Disk) (calls : List Call) (events : List Event) :
    Except Fault (List (Option ProcessErr) × Poset C) :=
  match bootstrap cfg disk calls with
  | .error fault => .error fault
  | .ok p => (processEvents cfg events).run p

end Poset

/-- `Store.ApplyGenesis` on an empty store, given validators, time, the genesis atropos and the hash
of the application's state. -/
def Disk.genesis (V : Validators) (time : Timestamp) (genesisAtropos : EventID) (appHash : Hash) :
    Disk :=
  let es : EpochState := ⟨1, ⟨0, time, genesisAtropos, appHash⟩, V⟩
  { main :=
      { checkpoint := some ⟨0, 0, genesisAtropos, appHash⟩
        genesis := some es
        epoch := some es
        confirmedEvent := ∅
        frameInfos := ∅ }
    epochDbs := ∅ }

end Lachesis
