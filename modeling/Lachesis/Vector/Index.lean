import Lachesis.Core.PrunedWalk
import Lachesis.Core.Run
import Lachesis.Inter.Pos
import Lachesis.Kvdb.Flushable
import Lachesis.Vector.Clock

/-!
# The vector index

The index assigns every event to a branch of its creator and stores what the event observes of
each branch and, for every event, the first event of each branch that observes it. Branches are
numbered in the order in which forks arrive; the first branch of a validator has the number of the
validator.

Stored vectors are read through caches of any kind that are written through. The tables of the
vector database are separate maps here, each under the flushable store of `kvdb`.
-/

namespace Lachesis

open Lachesis.Core Std

/-! ### Branches -/

/-- `branchesInfo` -/
structure BranchesInfo where
  /-- `BranchIDLastSeq` -/
  lastSeq : List ℕ
  /-- `BranchIDCreatorIdxs` -/
  creatorIdxs : List ℕ
  /-- `BranchIDByCreators` -/
  byCreators : List (List ℕ)
  deriving DecidableEq, Repr

def newInitialBranchesInfo (V : Validators) : BranchesInfo where
  lastSeq := List.replicate V.len 0
  creatorIdxs := List.range V.len
  byCreators := (List.range V.len).map fun i => [i]

namespace BranchesInfo

/-- `Index.atLeastOneFork` -/
def atLeastOneFork (bi : BranchesInfo) (V : Validators) : Bool := V.len < bi.creatorIdxs.length

/-- The branch that opens when an event does not continue the branch of its self-parent. -/
def newBranch (bi : BranchesInfo) (seq meIdx : ℕ) : Except Fault (BranchesInfo × ℕ) :=
  match bi.byCreators[meIdx]? with
  | none => .error .indexOutOfRange
  | some branches =>
    let newBranchID := bi.lastSeq.length
    .ok ({ lastSeq := bi.lastSeq ++ [seq]
           creatorIdxs := bi.creatorIdxs ++ [meIdx]
           byCreators := bi.byCreators.set meIdx (branches ++ [newBranchID]) }, newBranchID)

/-- `fillGlobalBranchID` after its sanity checks, given the branch of the self-parent. -/
def assign (bi : BranchesInfo) (e : Event) (meIdx : ℕ) (selfParentBranchID : Option ℕ) :
    Except Fault (BranchesInfo × ℕ) :=
  match selfParentBranchID with
  | none =>
    match bi.lastSeq[meIdx]? with
    | none => .error .indexOutOfRange
    | some last =>
      if last = 0 then .ok ({ bi with lastSeq := bi.lastSeq.set meIdx e.seq }, meIdx)
      else bi.newBranch e.seq meIdx
  | some branchID =>
    match bi.lastSeq[branchID]? with
    | none => .error .indexOutOfRange
    | some last =>
      if last + 1 = e.seq then .ok ({ bi with lastSeq := bi.lastSeq.set branchID e.seq }, branchID)
      else bi.newBranch e.seq meIdx

/-- `Index.setForkDetected`. The clock is a slice: a write past its end would make a copy that the
caller does not see. -/
def setForkDetected (bi : BranchesInfo) (V : Validators) (before : HighestBeforeSeq)
    (branchID : ℕ) : Except Fault HighestBeforeSeq :=
  match bi.creatorIdxs[branchID]? with
  | none => .error .indexOutOfRange
  | some creatorIdx =>
    match bi.byCreators[creatorIdx]? with
    | none => .error .indexOutOfRange
    | some branches =>
      if bi.atLeastOneFork V then
        .ok ((branches.takeWhile (· < before.size)).foldl (·.set · forkDetectedSeq) before)
      else .error (.crit .inconsistentBranchesInfo)

end BranchesInfo

/-! ### The clocks of a new event -/

/-- The clocks of an event that the clocks of its children are made from. -/
structure BeforeVecs where
  seq : HighestBeforeSeq
  time : HighestBeforeTime

namespace BeforeVecs

/-- Take over the bounds that a parent observes on a branch. -/
def takeBounds (my : BeforeVecs) (branchID : ℕ) (hisSeq : BranchSeq) (hisTime : Timestamp) :
    BeforeVecs :=
  let mySeq := my.seq.get branchID
  let minSeq := if mySeq.seq = 0 ∨ hisSeq.minSeq < mySeq.minSeq then hisSeq.minSeq else mySeq.minSeq
  let lowered := if mySeq.seq = 0 ∨ hisSeq.minSeq < mySeq.minSeq then
    my.seq.set branchID ⟨mySeq.seq, minSeq⟩ else my.seq
  if mySeq.seq < hisSeq.seq then
    ⟨lowered.set branchID ⟨hisSeq.seq, minSeq⟩, my.time.set branchID hisTime⟩
  else ⟨lowered, my.time⟩

/-- One branch of one parent in `fillEventVectors`. -/
def observeBranch (bi : BranchesInfo) (V : Validators) (his : BeforeVecs) (my : BeforeVecs)
    (branchID : ℕ) : Except Fault BeforeVecs :=
  let hisSeq := his.seq.get branchID
  if hisSeq.seq = 0 ∧ !hisSeq.isForkDetected then .ok my
  else if (my.seq.get branchID).isForkDetected then .ok my
  else if hisSeq.isForkDetected then
    (bi.setForkDetected V my.seq branchID).map fun seq => { my with seq }
  else .ok (my.takeBounds branchID hisSeq (his.time.get branchID))

/-- One parent in `fillEventVectors`. -/
def observeParent (bi : BranchesInfo) (V : Validators) (my his : BeforeVecs) :
    Except Fault BeforeVecs :=
  (List.range bi.creatorIdxs.length).foldlM (observeBranch bi V his) my

end BeforeVecs

/-- What is observed of two branches shows two events with one number. -/
def BranchSeq.overlaps (a b : BranchSeq) : Bool :=
  a.seq ≠ 0 && b.seq ≠ 0 && a.minSeq ≤ b.seq && b.minSeq ≤ a.seq

/-- One creator in the search for forks that no parent observed. -/
def BranchesInfo.detectFork (bi : BranchesInfo) (V : Validators) (before : HighestBeforeSeq)
    (n : ℕ) : Except Fault HighestBeforeSeq :=
  if (before.get n).isForkDetected then .ok before
  else match bi.byCreators[n]? with
    | none => .error .indexOutOfRange
    | some branches =>
      if branches.any fun b₁ => branches.any fun b₂ =>
          b₁ ≠ b₂ && (before.get b₁).overlaps (before.get b₂) then
        bi.setForkDetected V before n
      else .ok before

/-- The search for forks that no parent observed. -/
def BranchesInfo.detectForks (bi : BranchesInfo) (V : Validators) (before : HighestBeforeSeq) :
    Except Fault HighestBeforeSeq :=
  if bi.atLeastOneFork V then (List.range V.len).foldlM (bi.detectFork V) before else .ok before

/-- The clocks of a new event on the branch `meBranchID`, from those of its parents. `size` is the
number of branches before the event came. -/
def eventVecs (bi : BranchesInfo) (V : Validators) (e : Event) (size meBranchID : ℕ)
    (parentsVecs : List BeforeVecs) : Except Fault BeforeVecs := do
  let observed ← parentsVecs.foldlM (BeforeVecs.observeParent bi V)
    ⟨(HighestBeforeSeq.new size).set meBranchID ⟨e.seq, e.seq⟩,
      (HighestBeforeTime.new size).set meBranchID e.claimedTime⟩
  let seq ← bi.detectForks V observed.seq
  return { observed with seq }

/-! ### The index -/

/-- The read caches of the index. -/
structure VecCaches where
  highestBeforeSeq : Cache EventID (Option HighestBeforeSeq)
  highestBeforeTime : Cache EventID (Option HighestBeforeTime)
  lowestAfterSeq : Cache EventID (Option LowestAfterSeq)
  forklessCause : Cache (EventID × EventID) Bool

/-- The tables of the vector database. -/
structure VecTables where
  highestBeforeSeq : ExtTreeMap EventID HighestBeforeSeq
  highestBeforeTime : ExtTreeMap EventID HighestBeforeTime
  lowestAfterSeq : ExtTreeMap EventID LowestAfterSeq
  eventBranch : ExtTreeMap EventID ℕ
  branchesInfo : ExtTreeMap (List UInt8) BranchesInfo

def VecTables.empty : VecTables := ⟨∅, ∅, ∅, ∅, ∅⟩

/-- `vector.Index` -/
structure Index (C : VecCaches) where
  validators : Validators
  bi : Option BranchesInfo
  getEvent : GetEvent
  highestBeforeSeq : CachedTable C.highestBeforeSeq
  highestBeforeTime : CachedTable C.highestBeforeTime
  lowestAfterSeq : CachedTable C.lowestAfterSeq
  eventBranch : Flushable EventID ℕ
  branchesInfo : Flushable (List UInt8) BranchesInfo
  forklessCauseCache : C.forklessCause.State

abbrev IndexM (C : VecCaches) := StateT (Index C) (Except Fault)

namespace Index

variable {C : VecCaches}

/-- `NewIndex` and `Index.Reset`: over the stored tables, with nothing cached. -/
def new (V : Validators) (db : VecTables) (getEvent : GetEvent) : Index C where
  validators := V
  bi := none
  getEvent := getEvent
  highestBeforeSeq := .wrap _ db.highestBeforeSeq
  highestBeforeTime := .wrap _ db.highestBeforeTime
  lowestAfterSeq := .wrap _ db.lowestAfterSeq
  eventBranch := .wrap db.eventBranch
  branchesInfo := .wrap db.branchesInfo
  forklessCauseCache := C.forklessCause.empty

/-- The tables that are flushed. -/
def persisted (vi : Index C) : VecTables where
  highestBeforeSeq := vi.highestBeforeSeq.table.underlying
  highestBeforeTime := vi.highestBeforeTime.table.underlying
  lowestAfterSeq := vi.lowestAfterSeq.table.underlying
  eventBranch := vi.eventBranch.underlying
  branchesInfo := vi.branchesInfo.underlying

/-! #### Reads and writes -/

def getHighestBeforeSeq (id : EventID) : IndexM C (Option HighestBeforeSeq) := fun vi =>
  let r := vi.highestBeforeSeq.get id
  .ok (r.1, { vi with highestBeforeSeq := r.2 })

def getHighestBeforeTime (id : EventID) : IndexM C (Option HighestBeforeTime) := fun vi =>
  let r := vi.highestBeforeTime.get id
  .ok (r.1, { vi with highestBeforeTime := r.2 })

def getLowestAfterSeq (id : EventID) : IndexM C (Option LowestAfterSeq) := fun vi =>
  let r := vi.lowestAfterSeq.get id
  .ok (r.1, { vi with lowestAfterSeq := r.2 })

def setHighestBefore (id : EventID) (vecs : BeforeVecs) : IndexM C Unit :=
  modify fun vi => { vi with
    highestBeforeSeq := vi.highestBeforeSeq.set id vecs.seq
    highestBeforeTime := vi.highestBeforeTime.set id vecs.time }

def setLowestAfter (id : EventID) (seq : LowestAfterSeq) : IndexM C Unit :=
  modify fun vi => { vi with lowestAfterSeq := vi.lowestAfterSeq.set id seq }

def setEventBranchID (id : EventID) (branchID : ℕ) : IndexM C Unit :=
  modify fun vi => { vi with eventBranch := vi.eventBranch.put id branchID }

def getEventBranchID (id : EventID) : IndexM C ℕ := do
  match (← get).eventBranch.get id with
  | none => throw (.crit .noBranchID)
  | some branchID => return branchID

/-- The key `"c"` of the branches info. -/
def branchesInfoKey : List UInt8 := [99]

/-- What `initBranchesInfo` loads. -/
def loadedBranches (vi : Index C) : BranchesInfo :=
  (vi.bi.or (vi.branchesInfo.get branchesInfoKey)).getD (newInitialBranchesInfo vi.validators)

def initBranchesInfo : IndexM C Unit :=
  modify fun vi => { vi with bi := some vi.loadedBranches }

/-- The field `bi`, read after `initBranchesInfo`. -/
def branches : IndexM C BranchesInfo := do
  match (← get).bi with
  | none => throw .nilDereference
  | some bi => return bi

/-! #### Adding an event -/

/-- The branch of the self-parent, if there is one. -/
def selfParentBranchID (e : Event) : IndexM C (Option ℕ) :=
  match e.selfParent with
  | none => pure none
  | some selfParent => some <$> getEventBranchID selfParent

def fillGlobalBranchID (e : Event) (meIdx : ℕ) : IndexM C ℕ := do
  let bi ← branches
  let V := (← get).validators
  if bi.creatorIdxs.length ≠ bi.lastSeq.length ∨ bi.creatorIdxs.length < V.len then
    throw (.crit .inconsistentBranches)
  else
    let assigned ← liftM (bi.assign e meIdx (← selfParentBranchID e))
    modify fun vi => { vi with bi := some assigned.1 }
    return assigned.2

/-- The clocks of a parent, loaded by `fillEventVectors`. -/
def loadParent (id : EventID) : IndexM C BeforeVecs := do
  let _ ← getEventBranchID id
  let seq ← getHighestBeforeSeq id
  let time ← getHighestBeforeTime id
  match seq with
  | none => throw (.crit .parentNotFound)
  | some seq => return ⟨seq, time.getD (.new 0)⟩

/-- The callback `onWalk` of `fillEventVectors`: note on an old event that it is observed now. -/
def onWalk (seq meBranchID : ℕ) (walk : EventID) : IndexM C Bool := do
  let wLowestAfterSeq := (← getLowestAfterSeq walk).getD (.new 0)
  if wLowestAfterSeq.get meBranchID = 0 then
    setLowestAfter walk (wLowestAfterSeq.set meBranchID seq)
    return true
  else return false

/-- One step of `Index.dfsSubgraph`: the parents to push, if the filter lets the walk go on. -/
def dfsStep (walk : EventID → IndexM C Bool) (vi : Index C) (curr : EventID) :
    Except Fault (Index C × List EventID) :=
  match (walk curr).run vi with
  | .error fault => .error fault
  | .ok (false, vi) => .ok (vi, [])
  | .ok (true, vi) =>
    match vi.getEvent curr with
    | none => .error (.crit .walkFailed)
    | some event => .ok (vi, event.parents)

/-- The stored events, overwritten ones twice. -/
def storedEvents (vi : Index C) : List EventID :=
  vi.eventBranch.underlying.keys ++ vi.eventBranch.modified.keys

/-- The number of parents of a stored event. -/
def parentsLength (vi : Index C) (id : EventID) : ℕ :=
  ((vi.getEvent id).map (·.parents.length)).getD 0

/-- No walk from the parents of `head` pops more than this. -/
def walkBound (vi : Index C) (head : Event) : ℕ :=
  head.parents.length + (vi.storedEvents.map vi.parentsLength).sum

def dfsSubgraph (head : Event) (walk : EventID → IndexM C Bool) : IndexM C Unit := fun vi =>
  (Core.walk .outOfFuel (dfsStep walk) (vi.walkBound head) head.parents.reverse vi).map ((), ·)

def fillEventVectors (e : Event) : IndexM C Unit := do
  let V := (← get).validators
  let meIdx := V.getIdx e.creator
  let size := (← branches).creatorIdxs.length
  let meBranchID ← fillGlobalBranchID e meIdx
  let parentsVecs ← e.parents.mapM loadParent
  let myVecs ← liftM (eventVecs (← branches) V e size meBranchID parentsVecs)
  dfsSubgraph e (onWalk e.seq meBranchID)
  setHighestBefore e.hash myVecs
  setLowestAfter e.hash ((LowestAfterSeq.new size).set meBranchID e.seq)
  setEventBranchID e.hash meBranchID

def add (e : Event) : IndexM C Unit := do
  match ← getHighestBeforeSeq e.hash with
  | some _ => return ()
  | none =>
    initBranchesInfo
    fillEventVectors e

def flush : IndexM C Unit :=
  modify fun vi => { vi with
    highestBeforeSeq := vi.highestBeforeSeq.flush
    highestBeforeTime := vi.highestBeforeTime.flush
    lowestAfterSeq := vi.lowestAfterSeq.flush
    eventBranch := vi.eventBranch.flush
    branchesInfo := match vi.bi with
      | none => vi.branchesInfo.flush
      | some bi => (vi.branchesInfo.put branchesInfoKey bi).flush }

/-- `NotFlushedPairs` of the whole vector database. -/
def notFlushedPairs (vi : Index C) : ℕ :=
  vi.highestBeforeSeq.table.notFlushedPairs + vi.highestBeforeTime.table.notFlushedPairs +
    vi.lowestAfterSeq.table.notFlushedPairs + vi.eventBranch.notFlushedPairs +
    vi.branchesInfo.notFlushedPairs

def dropNotFlushed : IndexM C Unit :=
  modify fun vi =>
    if vi.notFlushedPairs = 0 then { vi with bi := none }
    else { vi with
      bi := none
      highestBeforeSeq := vi.highestBeforeSeq.dropNotFlushed
      highestBeforeTime := vi.highestBeforeTime.dropNotFlushed
      lowestAfterSeq := vi.lowestAfterSeq.dropNotFlushed
      eventBranch := vi.eventBranch.dropNotFlushed
      branchesInfo := vi.branchesInfo.dropNotFlushed }

/-! #### Queries -/

/-- Whether the greatest event of the branch that `a` observes observes `b`. -/
def observing (a : HighestBeforeSeq) (b : LowestAfterSeq) (branchID : ℕ) : Bool :=
  let bLowestAfter := b.get branchID
  let aHighestBefore := a.get branchID
  bLowestAfter ≤ aHighestBefore.seq && bLowestAfter ≠ 0 && !aHighestBefore.isForkDetected

/-- The counting loop of `forklessCause`: the creators of the branches on which `b` is observed. -/
def countObserving (a : HighestBeforeSeq) (b : LowestAfterSeq) :
    List (ℕ × ℕ) → StakeCounter → Except Fault StakeCounter
  | [], yes => .ok yes
  | (creatorIdx, branchID) :: rest, yes =>
    if observing a b branchID then
      match yes.countByIdx creatorIdx with
      | .error fault => .error fault
      | .ok (_, yes) => countObserving a b rest yes
    else countObserving a b rest yes

/-- Whether `a` observes a fork of the creator of `bID`, as `forklessCause` asks it. -/
def observesCheater (bi : BranchesInfo) (a : HighestBeforeSeq) (bID : EventID) :
    IndexM C Bool := do
  if bi.atLeastOneFork (← get).validators then
    return (a.get (← getEventBranchID bID)).isForkDetected
  else return false

/-- `Index.forklessCause` -/
def forklessCauseUncached (aID bID : EventID) : IndexM C Bool := do
  initBranchesInfo
  let bi ← branches
  match ← getHighestBeforeSeq aID with
  | none => throw (.crit .eventANotFound)
  | some a =>
    if ← observesCheater bi a bID then return false
    else match ← getLowestAfterSeq bID with
      | none => throw (.crit .eventBNotFound)
      | some b =>
        let yes ← liftM (countObserving a b bi.creatorIdxs.zipIdx (← get).validators.newCounter)
        return yes.hasQuorum

def forklessCause (aID bID : EventID) : IndexM C Bool := fun vi =>
  let r := C.forklessCause.find vi.forklessCauseCache (aID, bID)
  match r.1 with
  | some res => .ok (res, { vi with forklessCauseCache := r.2 })
  | none =>
    match (forklessCauseUncached aID bID).run { vi with forklessCauseCache := r.2 } with
    | .error fault => .error fault
    | .ok (res, vi) => .ok (res, { vi with
        forklessCauseCache := C.forklessCause.add vi.forklessCauseCache (aID, bID) res })

/-- The loop over the branches of one creator in `getHighestBeforeMerged`; a detected fork ends
it. -/
def mergeBranches (seqs : HighestBeforeSeq) (times : HighestBeforeTime) :
    List ℕ → BranchSeq → Timestamp → BranchSeq × Timestamp
  | [], merged, time => (merged, time)
  | branchID :: rest, merged, time =>
    let branch := seqs.get branchID
    if branch.isForkDetected then (branch, time)
    else
      let seq := if merged.seq < branch.seq then branch.seq else merged.seq
      let time := if merged.seq < branch.seq then times.get branchID else time
      let minSeq := if branch.minSeq ≠ 0 ∧ (merged.minSeq = 0 ∨ branch.minSeq < merged.minSeq) then
        branch.minSeq else merged.minSeq
      mergeBranches seqs times rest ⟨seq, minSeq⟩ time

/-- One creator in `getHighestBeforeMerged`. -/
def mergeCreator (seqs : HighestBeforeSeq) (times : HighestBeforeTime)
    (merged : HighestBeforeSeq × HighestBeforeTime) (creator : List ℕ × ℕ) :
    HighestBeforeSeq × HighestBeforeTime :=
  let record := mergeBranches seqs times creator.1 ⟨0, 0⟩ 0
  (merged.1.set creator.2 record.1, merged.2.set creator.2 record.2)

/-- The loop over the creators in `getHighestBeforeMerged`. -/
def mergeCreators (bi : BranchesInfo) (V : Validators) (seqs : HighestBeforeSeq)
    (times : HighestBeforeTime) : HighestBeforeSeq × HighestBeforeTime :=
  bi.byCreators.zipIdx.foldl (mergeCreator seqs times) (.new V.len, .new V.len)

/-- `Index.getHighestBeforeMerged` -/
def highestBeforeMergedWithTime (id : EventID) :
    IndexM C (Option HighestBeforeSeq × Option HighestBeforeTime) := do
  initBranchesInfo
  let bi ← branches
  let seqs ← getHighestBeforeSeq id
  let times ← getHighestBeforeTime id
  let V := (← get).validators
  if bi.atLeastOneFork V then
    let merged := mergeCreators bi V (seqs.getD (.new 0)) (times.getD (.new 0))
    return (some merged.1, some merged.2)
  else return (seqs, times)

def getHighestBeforeMerged (id : EventID) : IndexM C (Option HighestBeforeSeq) :=
  Prod.fst <$> highestBeforeMergedWithTime id

/-- `medianTimeIndex` -/
structure MedianTimeIndex where
  stake : Stake
  claimedTime : Timestamp

/-- The stake and the time with which a creator counts in `MedianTime`. -/
def medianTimeIndex (genesisTime : Timestamp) (stake : Stake) (seq : BranchSeq)
    (time : Timestamp) : MedianTimeIndex :=
  if seq.isForkDetected then ⟨0, time⟩
  else if seq.seq = 0 then ⟨stake, genesisTime⟩
  else ⟨stake, time⟩

/-- The last loop of `MedianTime`: the stake gone through and the time at which it reaches half. -/
def medianLoop (halfStake : Stake) : List MedianTimeIndex → Stake → Stake × Timestamp
  | [], currStake => (currStake, 0)
  | highest :: rest, currStake =>
    let currStake := currStake + highest.stake
    if halfStake ≤ currStake then (currStake, highest.claimedTime)
    else medianLoop halfStake rest currStake

def weightedMedian (highests : List MedianTimeIndex) : Except Fault Timestamp :=
  let honestTotalStake := (highests.map (·.stake)).foldl (· + ·) 0
  let sorted := highests.insertionSort fun a b => a.claimedTime ≤ b.claimedTime
  let halfStake := honestTotalStake / 2
  let found := medianLoop halfStake sorted 0
  if found.1 < halfStake ∨ honestTotalStake < found.1 then .error (.crit .medianTime)
  else .ok found.2

def medianTime (id : EventID) (genesisTime : Timestamp) : IndexM C Timestamp := do
  match ← highestBeforeMergedWithTime id with
  | (some seqs, some times) =>
    let V := (← get).validators
    liftM (weightedMedian (V.stakes.zipIdx.map fun (stake, i) =>
      medianTimeIndex genesisTime stake (seqs.get i) (times.get i)))
  | _ => return 0

/-- The loop of `NoCheaters`. -/
def noCheatersLoop (V : Validators) (getEvent : GetEvent)
    (highest : HighestBeforeSeq) : List EventID → Except Fault (List EventID)
  | [] => .ok []
  | id :: rest =>
    match getEvent id with
    | none => .error (.crit .eventNotFound)
    | some header =>
      (noCheatersLoop V getEvent highest rest).map fun filtered =>
        if (highest.get (V.getIdx header.creator)).isForkDetected then filtered else id :: filtered

def noCheaters (selfParent : Option EventID) (options : List EventID) :
    IndexM C (List EventID) := do
  match selfParent with
  | none => return options
  | some selfParent =>
    initBranchesInfo
    let highest := (← getHighestBeforeSeq selfParent).getD (.new 0)
    let vi ← get
    liftM (noCheatersLoop vi.validators vi.getEvent highest options)

end Index

end Lachesis
