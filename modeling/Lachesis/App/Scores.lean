import Lachesis.App.SfcIndex
import Lachesis.Core.Cache
import Mathlib.Algebra.BigOperators.Intervals
import Mathlib.Algebra.Order.BigOperators.Group.Finset
import Mathlib.Data.List.TakeWhile

/-!
# Validation scores

A validator scores the time between the blocks in which it has confirmed events. The blocks that it
missed are counted, and when it takes part again it is given the time of the last of these as well,
up to a latency. The counters are kept behind a cache; the times of the blocks too.

Every score that is added is noted with the interval between two blocks it stands for. A subtraction
of unsigned numbers that would go below zero ends the program here, where the code goes on with a
number that wrapped around; it never comes to that.

Of the index of the SFC contract only the stakers are kept here, and of these only what says who is
active. Block by block they are those of the whole index.
-/

namespace Lachesis

open Std Lachesis.Core

/-- `BlocksMissed` -/
structure BlocksMissed where
  num : ℕ
  period : Timestamp
  deriving DecidableEq, Repr

/-- The ways the application ends without returning. -/
inductive AppFault
  | nilDereference
  | indexOutOfRange
  /-- Only of the model: a subtraction of unsigned numbers went below zero. -/
  | wrapsAround
  deriving DecidableEq, Repr

/-- An unsigned subtraction. -/
def minus {α : Type} [Sub α] [LE α] [DecidableLE α] (a b : α) : Except AppFault α :=
  if b ≤ a then .ok (a - b) else .error .wrapsAround

lemma minus_of_le {α : Type} [Sub α] [LE α] [DecidableLE α] {a b : α} (h : b ≤ a) :
    minus a b = .ok (a - b) := if_pos h

/-! ### Tables behind caches -/

/-- A table behind a cache that is written through. `absent` is what the cache may hold for a key
that the table does not have. -/
structure LruTable {κ α : Type} [Ord κ] [TransOrd κ] (C : Cache κ α) (absent : Option α) where
  table : ExtTreeMap κ α
  cache : C.State
  coherent : C.All (fun k v => table[k]?.or absent = some v) cache

namespace LruTable

variable {κ α : Type} [Ord κ] [TransOrd κ] {C : Cache κ α} {absent : Option α}

/-- The table with nothing cached. -/
def wrap (C : Cache κ α) (absent : Option α) (table : ExtTreeMap κ α) : LruTable C absent :=
  ⟨table, C.empty, Cache.all_empty⟩

/-- Read from the cache, or from the table into the cache. -/
def get (t : LruTable C absent) (k : κ) : Option α × LruTable C absent :=
  match (C.find t.cache k).1 with
  | some v => (some v, ⟨t.table, (C.find t.cache k).2, t.coherent.find k⟩)
  | none =>
    match h : t.table[k]? with
    | some v => (some v,
        ⟨t.table, C.add (C.find t.cache k).2 k v, (t.coherent.find k).add (by simp [h])⟩)
    | none => (none, ⟨t.table, (C.find t.cache k).2, t.coherent.find k⟩)

lemma get_fst (t : LruTable C absent) (k : κ) : (t.get k).1.or absent = t.table[k]?.or absent := by
  unfold get
  split
  case h_1 v h => exact (t.coherent.of_find_eq h).symm
  case h_2 => split <;> simp_all

@[simp] lemma table_get (t : LruTable C absent) (k : κ) : (t.get k).2.table = t.table := by
  unfold get
  split
  · rfl
  · split <;> rfl

variable [LawfulEqOrd κ]

/-- Write to the table and to the cache. -/
def set (t : LruTable C absent) (k : κ) (v : α) : LruTable C absent :=
  ⟨t.table.insert k v, C.add t.cache k v, t.coherent.add_update (by simp)
    fun k' v' hne h => by simpa [ExtTreeMap.getElem?_insert, hne.symm] using h⟩

/-- Delete from the table, and cache what stands for a key that is absent. -/
def del {d : α} (t : LruTable C (some d)) (k : κ) : LruTable C (some d) :=
  ⟨t.table.erase k, C.add t.cache k d, t.coherent.add_update (by simp)
    fun k' v' hne h => by simpa [ExtTreeMap.getElem?_erase, hne.symm] using h⟩

end LruTable

/-! ### The store of the application -/

/-- A call of `AddDirtyValidationScore`: for whom and in which block, for the interval between which
block and the one before it, and how much. -/
structure Credit where
  stakerID : StakerID
  block : ℕ
  interval : ℕ
  diff : Timestamp
  deriving DecidableEq, Repr

/-- `app.Store` and the epoch of the application, as far as validation scores go. The credits are
only of the model. -/
structure AppStore (B : Cache ℕ Timestamp) (C : Cache StakerID BlocksMissed) where
  blocks : LruTable B none
  stakers : ExtTreeMap StakerID Sfc.Activity
  validators : List (ℕ × StakerID)
  blockDowntime : LruTable C (some ⟨0, 0⟩)
  dirtyValidationScore : ExtTreeMap StakerID ℕ
  activeValidationScore : ExtTreeMap StakerID ℕ
  epoch : ℕ
  credits : List Credit

/-- The configured numbers. -/
structure Economy where
  /-- `BlockMissedLatency` -/
  blockMissedLatency : ℕ
  /-- `OfflinePenaltyThreshold` -/
  offlinePenaltyThreshold : BlocksMissed

/-- What comes with a block: who has confirmed events in it, whether it seals the epoch, what its
logs tell, and the cheaters. -/
structure BlockOutcome where
  blockParticipated : StakerID → Bool
  sealEpoch : Bool
  logs : List Sfc.Effect
  cheaters : List StakerID

/-- Programs over the store of the application. -/
abbrev AppM (B : Cache ℕ Timestamp) (C : Cache StakerID BlocksMissed) :=
  StateT (AppStore B C) (Except AppFault)

namespace AppStore

variable {B : Cache ℕ Timestamp} {C : Cache StakerID BlocksMissed}

def setBlock (n : ℕ) (time : Timestamp) : AppM B C PUnit :=
  modify fun s => { s with blocks := s.blocks.set n time }

/-- `App.blockTime`: `GetBlock`, of which a field is read. -/
def blockTime (n : ℕ) : AppM B C Timestamp := do
  let r := (← get).blocks.get n
  modify fun s => { s with blocks := r.2 }
  match r.1 with
  | none => throw .nilDereference
  | some time => return time

def getBlocksMissed (stakerID : StakerID) : AppM B C BlocksMissed := do
  let r := (← get).blockDowntime.get stakerID
  modify fun s => { s with blockDowntime := r.2 }
  return r.1.getD ⟨0, 0⟩

def incBlocksMissed (stakerID : StakerID) (periodDiff : Timestamp) : AppM B C PUnit := do
  let missed ← getBlocksMissed stakerID
  modify fun s => { s with
    blockDowntime := s.blockDowntime.set stakerID ⟨missed.num + 1, missed.period + periodDiff⟩ }

def resetBlocksMissed (stakerID : StakerID) : AppM B C PUnit :=
  modify fun s => { s with blockDowntime := s.blockDowntime.del stakerID }

def addDirtyValidationScore (credit : Credit) : AppM B C PUnit :=
  modify fun s => { s with
    dirtyValidationScore := s.dirtyValidationScore.insert credit.stakerID
      (s.dirtyValidationScore.getD credit.stakerID 0 + credit.diff.toNat)
    credits := s.credits ++ [credit] }

def getActiveSfcStakers (s : AppStore B C) : List StakerID :=
  (s.stakers.toList.filter (·.2.ok)).map (·.1)

def hasEpochValidator (s : AppStore B C) (epoch : ℕ) (stakerID : StakerID) : Bool :=
  (epoch, stakerID) ∈ s.validators

def setEpochValidators (epoch : ℕ) (stakers : List StakerID) : AppM B C PUnit :=
  modify fun s => { s with validators := s.validators ++ stakers.map (epoch, ·) }

/-! ### The scores -/

/-- The numbers `i` of the loop over the blocks missed before the block `index`. -/
def missedBlocks (missedNum index : ℕ) : List ℕ :=
  (List.range' 1 missedNum).takeWhile (· < index)

/-- One round of the loop over the blocks missed. -/
def creditMissed (stakerID : StakerID) (index i : ℕ) : AppM B C PUnit := do
  let cur ← minus index i
  let curBlockTime ← blockTime cur
  let prev ← minus cur 1
  let prevBlockTime ← blockTime prev
  let timeDiff ← minus curBlockTime prevBlockTime
  addDirtyValidationScore ⟨stakerID, index, cur, timeDiff⟩

/-- One round of the loop over the active stakers. -/
def updateValidationScore (net : Economy) (epoch index : ℕ) (blockTimeDiff : Timestamp)
    (blockParticipated : StakerID → Bool) (stakerID : StakerID) : AppM B C PUnit := do
  if (← get).hasEpochValidator epoch stakerID then
    if blockParticipated stakerID then
      let missedNum := min (← getBlocksMissed stakerID).num net.blockMissedLatency
      addDirtyValidationScore ⟨stakerID, index, index, blockTimeDiff⟩
      (missedBlocks missedNum index).forM (creditMissed stakerID index)
      resetBlocksMissed stakerID
    else incBlocksMissed stakerID blockTimeDiff

/-- `DelAllActiveValidationScores` and `MoveDirtyValidationScoresToActive` -/
def moveDirtyValidationScores : AppM B C PUnit :=
  modify fun s => { s with
    activeValidationScore := s.dirtyValidationScore
    dirtyValidationScore := ∅ }

def updateValidationScores (net : Economy) (epoch index : ℕ) (time : Timestamp)
    (outcome : BlockOutcome) : AppM B C PUnit := do
  let prevBlockTime ← blockTime (← minus index 1)
  let blockTimeDiff ← minus time prevBlockTime
  (← get).getActiveSfcStakers.forM
    (updateValidationScore net epoch index blockTimeDiff outcome.blockParticipated)
  if outcome.sealEpoch then moveDirtyValidationScores

/-! ### Stakers -/

/-- `GetSfcStaker`, of which a field is read. -/
def getSfcStaker (stakerID : StakerID) : AppM B C Sfc.Activity := do
  match (← get).stakers[stakerID]? with
  | none => throw .nilDereference
  | some staker => return staker

def setSfcStaker (stakerID : StakerID) (staker : Sfc.Activity) : AppM B C PUnit :=
  modify fun s => { s with stakers := s.stakers.insert stakerID staker }

def delAllStakerData (stakerID : StakerID) : AppM B C PUnit := do
  modify fun s => { s with stakers := s.stakers.erase stakerID }
  resetBlocksMissed stakerID
  modify fun s => { s with
    activeValidationScore := s.activeValidationScore.erase stakerID
    dirtyValidationScore := s.dirtyValidationScore.erase stakerID }

/-- What `processSfc` does for a log, as far as it is about stakers. -/
def processLog (epoch : ℕ) : Sfc.Effect → AppM B C PUnit
  | .outOfRange => throw .indexOutOfRange
  | .createsStaker id => setSfcStaker id ⟨0, 0⟩
  | .needsStaker id => do
    let staker ← getSfcStaker id
    setSfcStaker id { staker with deactivatedEpoch := epoch }
  | .withdrawsStake id => delAllStakerData id
  | _ => pure ⟨⟩

/-- What `processSfc` does for a cheater: it sets `ForkBit`. -/
def writeCheater (stakerID : StakerID) : AppM B C PUnit := do
  let staker ← getSfcStaker stakerID
  if staker.status &&& Sfc.forkBit = 0 then
    setSfcStaker stakerID { staker with status := staker.status ||| Sfc.forkBit }

/-- What `processSfc` does for a staker at the end of an epoch: it sets `OfflineBit` if too many
blocks were missed. -/
def writeOffline (net : Economy) (it : StakerID × Sfc.Activity) : AppM B C PUnit := do
  if it.2.status &&& 256 = 0 then
    let gotMissed ← getBlocksMissed it.1
    let badMissed := net.offlinePenaltyThreshold
    if badMissed.num ≤ gotMissed.num ∧ badMissed.period ≤ gotMissed.period then
      setSfcStaker it.1 { it.2 with status := it.2.status ||| 256 }

def processSfc (net : Economy) (epoch : ℕ) (outcome : BlockOutcome) : AppM B C PUnit := do
  outcome.logs.forM (processLog epoch)
  outcome.cheaters.forM writeCheater
  if outcome.sealEpoch then
    (← get).stakers.toList.forM (writeOffline net)
    setEpochValidators (epoch + 1) (← get).getActiveSfcStakers

/-! ### Blocks -/

def incEpoch : AppM B C PUnit := modify fun s => { s with epoch := s.epoch + 1 }

def endBlock (net : Economy) (index : ℕ) (time : Timestamp) (outcome : BlockOutcome) :
    AppM B C PUnit := do
  let epoch := (← get).epoch
  updateValidationScores net epoch index time outcome
  processSfc net epoch outcome
  if outcome.sealEpoch then incEpoch

/-- `BeginBlock` and `EndBlock` -/
def applyBlock (net : Economy) (index : ℕ) (time : Timestamp) (outcome : BlockOutcome) :
    AppM B C PUnit := do
  setBlock index time
  endBlock net index time outcome

/-- The store after `ApplyGenesis` with these validators. -/
def genesis (B : Cache ℕ Timestamp) (C : Cache StakerID BlocksMissed) (time : Timestamp)
    (validators : List StakerID) : AppStore B C where
  blocks := (LruTable.wrap B none ∅).set 0 time
  stakers := validators.foldl (fun stakers id => stakers.insert id ⟨0, 0⟩) ∅
  validators := validators.map (1, ·)
  blockDowntime := .wrap C _ ∅
  dirtyValidationScore := ∅
  activeValidationScore := ∅
  epoch := 1
  credits := []

/-- The store opened again: nothing is cached. -/
def reopen (s : AppStore B C) : AppStore B C :=
  { s with
    blocks := .wrap B none s.blocks.table
    blockDowntime := .wrap C _ s.blockDowntime.table }

/-- The time of a block, zero if it is not stored. -/
def time (s : AppStore B C) (n : ℕ) : Timestamp := s.blocks.table.getD n 0

/-- The store after `n` blocks with times that do not decrease, and reopened at any time. -/
inductive Run (net : Economy) : ℕ → AppStore B C → Prop
  | genesis (time : Timestamp) (validators : List StakerID) :
      Run net 0 (genesis B C time validators)
  | block {n s s' time outcome} (h : Run net n s) (htime : s.time n ≤ time)
      (hrun : (applyBlock net (n + 1) time outcome).run s = .ok (⟨⟩, s')) : Run net (n + 1) s'
  | reopen {n s} (h : Run net n s) : Run net n s.reopen

/-! ### What the loops add -/

/-- The counter of a staker. -/
def missed (s : AppStore B C) (id : StakerID) : BlocksMissed :=
  s.blockDowntime.table[id]?.getD ⟨0, 0⟩

/-- What was credited to a staker. -/
def creditsOf (s : AppStore B C) (id : StakerID) : List Credit :=
  s.credits.filter (·.stakerID = id)

/-- What was ever added to the dirty score of a staker. -/
def total (s : AppStore B C) (id : StakerID) : ℕ := ((s.creditsOf id).map (·.diff.toNat)).sum

/-- The scores of a staker in the tables, of this epoch and of the last one. -/
def score (s : AppStore B C) (id : StakerID) : ℕ :=
  s.dirtyValidationScore.getD id 0 + s.activeValidationScore.getD id 0

/-- No score grows by more than what was added. -/
def Within (s s' : AppStore B C) : Prop :=
  ∀ id, s'.score id + s.total id ≤ s.score id + s'.total id

/-- The blocks and the counters are the same, and the credits are added. -/
structure Adds (cs : List Credit) (s s' : AppStore B C) : Prop where
  blocks : s'.blocks.table = s.blocks.table
  downtime : s'.blockDowntime.table = s.blockDowntime.table
  credits : s'.credits = s.credits ++ cs
  within : Within s s'

section Loops

variable {s s' s'' : AppStore B C} {cs cs' : List Credit} {net : Economy} {id : StakerID}
  {n i index epoch : ℕ}

lemma Within.refl (s : AppStore B C) : Within s s := fun _ => le_rfl

lemma Within.trans (h : Within s s') (h' : Within s' s'') : Within s s'' := by
  intro id
  have hfirst := h id
  have hsecond := h' id
  omega

lemma Within.of_le (hscore : ∀ id, s'.score id ≤ s.score id) (hcredits : s'.credits = s.credits) :
    Within s s' := by
  intro id
  rw [total, total, creditsOf, creditsOf, hcredits]
  exact Nat.add_le_add_right (hscore id) _

lemma Adds.refl (s : AppStore B C) : Adds [] s s := ⟨rfl, rfl, by simp, .refl s⟩

lemma Adds.trans (h : Adds cs s s') (h' : Adds cs' s' s'') : Adds (cs ++ cs') s s'' where
  blocks := h'.blocks.trans h.blocks
  downtime := h'.downtime.trans h.downtime
  credits := by rw [h'.credits, h.credits, List.append_assoc]
  within := h.within.trans h'.within

lemma Adds.missed (h : Adds cs s s') (id : StakerID) : s'.missed id = s.missed id := by
  rw [AppStore.missed, h.downtime, AppStore.missed]

lemma blockTime_returns (h : n ∈ s.blocks.table) :
    Returns (blockTime n) s fun t s' => t = s.time n ∧ Adds [] s s' := by
  obtain ⟨t, ht⟩ := Option.isSome_iff_exists.mp (ExtTreeMap.mem_iff_isSome_getElem?.mp h)
  have hget : (s.blocks.get n).1 = some t := by
    have hor := s.blocks.get_fst n
    rwa [Option.or_none, Option.or_none, ht] at hor
  have htime : s.time n = t := by
    rw [AppStore.time, ExtTreeMap.getD_eq_getD_getElem?, ht, Option.getD_some]
  refine .get_bind (.modify_bind ?_)
  rw [hget]
  exact .pure ⟨htime.symm, by simp, rfl, by simp, .refl _⟩

lemma getBlocksMissed_returns (s : AppStore B C) (id : StakerID) :
    Returns (getBlocksMissed id) s fun m s' => m = s.missed id ∧ Adds [] s s' := by
  refine .get_bind (.modify_bind (.pure ⟨?_, rfl, by simp, by simp, .refl _⟩))
  have hor := congrArg (·.getD ⟨0, 0⟩) (s.blockDowntime.get_fst id)
  simpa [AppStore.missed] using hor

/-- The blocks up to `n` are stored, with times that do not decrease. -/
structure Timed (n : ℕ) (s : AppStore B C) : Prop where
  mem : ∀ k ≤ n, k ∈ s.blocks.table
  mono : ∀ k < n, s.time k ≤ s.time (k + 1)

lemma time_congr (h : s'.blocks.table = s.blocks.table) (k : ℕ) : s'.time k = s.time k := by
  rw [AppStore.time, h, AppStore.time]

lemma Timed.congr (h : Timed n s) (hblocks : s'.blocks.table = s.blocks.table) : Timed n s' where
  mem k hk := hblocks ▸ h.mem k hk
  mono k hk := by
    rw [time_congr hblocks, time_congr hblocks]
    exact h.mono k hk

/-- The credit in the block `index` for the interval that ends with the block `k`. -/
def creditFor (s : AppStore B C) (id : StakerID) (index k : ℕ) : Credit :=
  ⟨id, index, k, s.time k - s.time (k - 1)⟩

lemma Adds.creditFor (h : Adds cs s s') : s'.creditFor id index = s.creditFor id index := by
  funext k
  simp [AppStore.creditFor, time_congr h.blocks]

lemma addDirtyValidationScore_returns (s : AppStore B C) (c : Credit) :
    Returns (addDirtyValidationScore c) s fun _ s' => Adds [c] s s' := by
  refine .modify ⟨rfl, rfl, rfl, fun id => ?_⟩
  simp only [score, total, creditsOf, ExtTreeMap.getD_insert, LawfulEqCmp.compare_eq_iff_eq,
    List.filter_append, List.map_append, List.sum_append]
  by_cases hid : c.stakerID = id
  · simp [hid]
    omega
  · simp [hid]

lemma creditMissed_returns (h : Timed index s) (hi : i < index) :
    Returns (creditMissed id index i) s fun _ s' =>
      Adds [s.creditFor id index (index - i)] s s' := by
  have hprev : index - i - 1 ≤ index := by omega
  have hcur : index - i - 1 + 1 = index - i := by omega
  refine .lift_bind (minus_of_le hi.le) ?_
  refine (blockTime_returns (h.mem _ (Nat.sub_le index i))).bind ?_
  rintro _ s₁ ⟨rfl, hadds₁⟩
  refine .lift_bind (minus_of_le (by omega : 1 ≤ index - i)) ?_
  refine (blockTime_returns ((h.congr hadds₁.blocks).mem _ hprev)).bind ?_
  rintro _ s₂ ⟨rfl, hadds₂⟩
  rw [time_congr hadds₁.blocks]
  have hmono := h.mono (index - i - 1) (by omega)
  rw [hcur] at hmono
  refine .lift_bind (minus_of_le hmono) ?_
  refine (addDirtyValidationScore_returns s₂ _).mono ?_
  intro _ s₃ hadds₃
  exact (hadds₁.trans hadds₂).trans hadds₃

/-- The intervals credited in the block `index`: the last one, and those of the blocks missed. -/
def intervals (missedNum index : ℕ) : List ℕ :=
  index :: (missedBlocks missedNum index).map (index - ·)

lemma mem_missedBlocks {missedNum : ℕ} (h : i ∈ missedBlocks missedNum index) :
    1 ≤ i ∧ i ≤ missedNum ∧ i < index := by
  have hrange := List.mem_range'_1.mp ((List.takeWhile_sublist _).subset h)
  have hlt : i < index := by simpa using List.mem_takeWhile_imp h
  omega

lemma mem_intervals {missedNum k : ℕ} (hindex : 1 ≤ index)
    (h : k ∈ intervals missedNum index) : 1 ≤ k ∧ k ≤ index ∧ index ≤ k + missedNum := by
  obtain rfl | ⟨i, hi, rfl⟩ := by simpa [intervals] using h
  · omega
  · have := mem_missedBlocks hi
    omega

lemma nodup_intervals (missedNum index : ℕ) : (intervals missedNum index).Nodup := by
  rw [intervals, List.nodup_cons]
  constructor
  · intro hmem
    obtain ⟨i, hi, heq⟩ := List.mem_map.mp hmem
    have := mem_missedBlocks hi
    omega
  · apply List.Nodup.map_on
    · intro i hi j hj heq
      have := mem_missedBlocks hi
      have := mem_missedBlocks hj
      omega
    · exact List.Nodup.sublist (List.takeWhile_sublist _) List.nodup_range'

lemma length_intervals_le (missedNum index : ℕ) :
    (intervals missedNum index).length ≤ 1 + missedNum := by
  have hle := (List.takeWhile_sublist (· < index) (l := List.range' 1 missedNum)).length_le
  rw [List.length_range'] at hle
  rw [intervals, List.length_cons, List.length_map, add_comm]
  exact Nat.add_le_add_left hle 1

lemma creditAll_returns (h : Timed index s) (missedNum : ℕ) :
    Returns ((missedBlocks missedNum index).forM (creditMissed id index)) s fun _ s' =>
      Adds ((missedBlocks missedNum index).map fun i => s.creditFor id index (index - i)) s s' := by
  apply Returns.forM fun done s' =>
    Adds (done.map fun i => s.creditFor id index (index - i)) s s'
  · exact Adds.refl s
  · intro done i rest t hsplit hadds
    have hi : i ∈ missedBlocks missedNum index := by simp [hsplit]
    refine (creditMissed_returns (h.congr hadds.blocks) (mem_missedBlocks hi).2.2).mono ?_
    intro _ t' hadds'
    rw [hadds.creditFor] at hadds'
    rw [List.map_append, List.map_singleton]
    exact hadds.trans hadds'

/-- What a round of the loop over the stakers does: it counts a missed block, or credits intervals
and resets the counter. -/
structure Round (net : Economy) (index : ℕ) (id : StakerID) (s s' : AppStore B C) : Prop where
  blocks : s'.blocks.table = s.blocks.table
  missed : ∀ id', id' ≠ id → s'.missed id' = s.missed id'
  creditsOf : ∀ id', id' ≠ id → s'.creditsOf id' = s.creditsOf id'
  own : ((s'.missed id).num ≤ (s.missed id).num + 1 ∧ s'.creditsOf id = s.creditsOf id) ∨
    (s'.missed id).num = 0 ∧ ∃ k ≤ min (s.missed id).num net.blockMissedLatency,
      s'.creditsOf id = s.creditsOf id ++ (intervals k index).map (s.creditFor id index)
  within : Within s s'

lemma missed_setBlockDowntime (s : AppStore B C) (id id' : StakerID) (m : BlocksMissed) :
    ({ s with blockDowntime := s.blockDowntime.set id m } : AppStore B C).missed id' =
      if id' = id then m else s.missed id' := by
  simp only [AppStore.missed, LruTable.set, ExtTreeMap.getElem?_insert,
    LawfulEqCmp.compare_eq_iff_eq, eq_comm (a := id)]
  split <;> rfl

lemma missed_delBlockDowntime (s : AppStore B C) (id id' : StakerID) :
    ({ s with blockDowntime := s.blockDowntime.del id } : AppStore B C).missed id' =
      if id' = id then ⟨0, 0⟩ else s.missed id' := by
  simp only [AppStore.missed, LruTable.del, ExtTreeMap.getElem?_erase,
    LawfulEqCmp.compare_eq_iff_eq, eq_comm (a := id)]
  split <;> rfl

lemma Adds.creditsOf (h : Adds cs s s') (id : StakerID) :
    s'.creditsOf id = s.creditsOf id ++ cs.filter (·.stakerID = id) := by
  rw [AppStore.creditsOf, h.credits, List.filter_append, AppStore.creditsOf]

lemma Adds.round_inc (h : Adds [] s s') {m : BlocksMissed} (hm : m.num = (s.missed id).num + 1) :
    Round net index id s { s' with blockDowntime := s'.blockDowntime.set id m } where
  blocks := h.blocks
  missed id' hne := by rw [missed_setBlockDowntime, if_neg hne, h.missed]
  creditsOf id' _ := (h.creditsOf id').trans (List.append_nil _)
  own := by
    left
    rw [missed_setBlockDowntime, if_pos rfl, hm]
    exact ⟨le_rfl, (h.creditsOf id).trans (List.append_nil _)⟩
  within := h.within

lemma Adds.round_reset {k : ℕ} (h : Adds ((intervals k index).map (s.creditFor id index)) s s')
    (hk : k ≤ min (s.missed id).num net.blockMissedLatency) :
    Round net index id s { s' with blockDowntime := s'.blockDowntime.del id } := by
  have hfilter : ∀ id', ((intervals k index).map (s.creditFor id index)).filter
      (·.stakerID = id') = if id = id' then (intervals k index).map (s.creditFor id index)
        else [] := by
    intro id'
    split <;> simp_all [AppStore.creditFor]
  refine ⟨h.blocks, ?_, ?_, .inr ⟨?_, k, hk, ?_⟩, h.within⟩
  · intro id' hne
    rw [missed_delBlockDowntime, if_neg hne, h.missed]
  · intro id' hne
    have hcredits := h.creditsOf id'
    rwa [hfilter, if_neg hne.symm, List.append_nil] at hcredits
  · rw [missed_delBlockDowntime, if_pos rfl]
  · have hcredits := h.creditsOf id
    rwa [hfilter, if_pos rfl] at hcredits

/-- A staker is credited once, or one more block is missed. -/
lemma updateValidationScore_returns (h : Timed (n + 1) s) (blockParticipated : StakerID → Bool) :
    Returns (updateValidationScore net epoch (n + 1) (s.time (n + 1) - s.time n)
      blockParticipated id) s fun _ s' => Round net (n + 1) id s s' := by
  refine .get_bind ?_
  split
  · split
    · refine (getBlocksMissed_returns s id).bind ?_
      rintro _ s₁ ⟨rfl, hadds₁⟩
      refine (addDirtyValidationScore_returns s₁ _).bind ?_
      intro _ s₂ hadds₂
      have hadds := hadds₁.trans hadds₂
      refine (creditAll_returns (h.congr hadds.blocks) _).bind ?_
      intro _ s₃ hadds₃
      rw [hadds.creditFor] at hadds₃
      apply Returns.modify
      apply Adds.round_reset _ le_rfl
      rw [intervals, List.map_cons, List.map_map]
      exact hadds.trans hadds₃
    · refine (getBlocksMissed_returns s id).bind ?_
      rintro _ s₁ ⟨rfl, hadds₁⟩
      apply Returns.modify
      exact hadds₁.round_inc rfl
  · exact .pure ⟨rfl, fun _ _ => rfl, fun _ _ => rfl, .inl ⟨by simp, rfl⟩, .refl s⟩

/-! ### Every interval once -/

/-- What holds of a staker after `n` blocks: its credits are for intervals up to some block, none of
them twice, and it missed at most the blocks since then. -/
structure CreditedTo (net : Economy) (n last : ℕ) (id : StakerID) (s : AppStore B C) : Prop where
  missed : last + (s.missed id).num ≤ n
  interval : ∀ c ∈ s.creditsOf id, 1 ≤ c.interval ∧ c.interval ≤ last
  block : ∀ c ∈ s.creditsOf id, c.block ≤ n
  diff : ∀ c ∈ s.creditsOf id, c.diff = s.time c.interval - s.time (c.interval - 1)
  nodup : ((s.creditsOf id).map (·.interval)).Nodup
  latency : ∀ b, (s.creditsOf id).countP (·.block = b) ≤ 1 + net.blockMissedLatency

/-- Some block is the last one credited. -/
def Credited (net : Economy) (n : ℕ) (id : StakerID) (s : AppStore B C) : Prop :=
  ∃ last, CreditedTo net n last id s

lemma Credited.congr {n' : ℕ} (h : Credited net n id s) (hn : n ≤ n')
    (htime : ∀ k ≤ n, s'.time k = s.time k)
    (hmissed : (s'.missed id).num + n ≤ (s.missed id).num + n')
    (hcredits : s'.creditsOf id = s.creditsOf id) : Credited net n' id s' := by
  obtain ⟨last, hlast⟩ := h
  have hle := hlast.missed
  refine ⟨last, ?_, ?_, ?_, ?_, ?_, ?_⟩
  · omega
  · rw [hcredits]
    exact hlast.interval
  · rw [hcredits]
    exact fun c hc => (hlast.block c hc).trans hn
  · intro c hc
    rw [hcredits] at hc
    have hinterval := hlast.interval c hc
    rw [htime _ (by omega), htime _ (by omega)]
    exact hlast.diff c hc
  · rw [hcredits]
    exact hlast.nodup
  · rw [hcredits]
    exact hlast.latency

/-- Credits for missed blocks do not reach back to those already given. -/
lemma CreditedTo.append {last k : ℕ} (h : CreditedTo net n last id s)
    (hk : k ≤ min (s.missed id).num net.blockMissedLatency)
    (htime : ∀ j, s'.time j = s.time j) (hzero : (s'.missed id).num = 0)
    (hcredits : s'.creditsOf id =
      s.creditsOf id ++ (intervals k (n + 1)).map (s.creditFor id (n + 1))) :
    CreditedTo net (n + 1) (n + 1) id s' := by
  have hmissed := h.missed
  have hnew : ∀ j ∈ intervals k (n + 1), 1 ≤ j ∧ last < j ∧ j ≤ n + 1 := by
    intro j hj
    have := mem_intervals (Nat.le_add_left 1 n) hj
    omega
  have hcases : ∀ c ∈ s'.creditsOf id,
      c ∈ s.creditsOf id ∨ ∃ j ∈ intervals k (n + 1), s.creditFor id (n + 1) j = c := by
    intro c hc
    rwa [hcredits, List.mem_append, List.mem_map] at hc
  refine ⟨?_, ?_, ?_, ?_, ?_, ?_⟩
  · rw [hzero]
  · intro c hc
    obtain hc | ⟨j, hj, rfl⟩ := hcases c hc
    · have := h.interval c hc
      omega
    · have := hnew j hj
      exact ⟨this.1, this.2.2⟩
  · intro c hc
    obtain hc | ⟨j, hj, rfl⟩ := hcases c hc
    · exact (h.block c hc).trans n.le_succ
    · exact le_rfl
  · intro c hc
    rw [htime, htime]
    obtain hc | ⟨j, hj, rfl⟩ := hcases c hc
    · exact h.diff c hc
    · rfl
  · rw [hcredits, List.map_append, List.map_map]
    refine List.nodup_append.mpr ⟨h.nodup, ?_, ?_⟩
    · exact (List.map_id (intervals k (n + 1))).symm ▸ nodup_intervals k (n + 1)
    · intro a ha b hb hab
      obtain ⟨c, hc, rfl⟩ := List.mem_map.mp ha
      obtain ⟨j, hj, rfl⟩ := List.mem_map.mp hb
      have hold := (h.interval c hc).2
      have := (hnew j hj).2.1
      simp only [Function.comp_apply, AppStore.creditFor] at hab
      omega
  · intro b
    rw [hcredits, List.countP_append]
    by_cases hb : b = n + 1
    · have hnone : (s.creditsOf id).countP (·.block = b) = 0 := by
        rw [List.countP_eq_zero]
        intro c hc
        have := h.block c hc
        simp only [decide_eq_true_eq]
        omega
      have hle : ((intervals k (n + 1)).map (s.creditFor id (n + 1))).countP (·.block = b) ≤
          1 + k := by
        refine List.countP_le_length.trans ?_
        rw [List.length_map]
        exact length_intervals_le k (n + 1)
      omega
    · have hnone : ((intervals k (n + 1)).map (s.creditFor id (n + 1))).countP (·.block = b) =
          0 := by
        rw [List.countP_eq_zero]
        intro c hc
        obtain ⟨j, hj, rfl⟩ := List.mem_map.mp hc
        simp only [decide_eq_true_eq]
        exact Ne.symm hb
      rw [hnone, add_zero]
      exact h.latency b

lemma Credited.round (h : Credited net n id s) (hround : Round net (n + 1) id s s') :
    Credited net (n + 1) id s' := by
  have htime := time_congr hround.blocks
  obtain ⟨hinc, hcredits⟩ | ⟨hzero, k, hk, hcredits⟩ := hround.own
  · exact h.congr n.le_succ (fun k _ => htime k) (by omega) hcredits
  · obtain ⟨last, hlast⟩ := h
    exact ⟨n + 1, hlast.append hk htime hzero hcredits⟩

lemma Credited.of_round {id' : StakerID} (h : Credited net n id' s)
    (hround : Round net index id s s') (hne : id' ≠ id) : Credited net n id' s' := by
  apply h.congr le_rfl fun k _ => time_congr hround.blocks k
  · rw [hround.missed id' hne]
  · exact hround.creditsOf id' hne

/-- The store after `n` blocks. -/
structure Scored (net : Economy) (n : ℕ) (s : AppStore B C) : Prop where
  timed : Timed n s
  credited : ∀ id, Credited net n id s
  score_le : ∀ id, s.score id ≤ s.total id

lemma Within.score_le (h : Within s s') (hs : ∀ id, s.score id ≤ s.total id) (id : StakerID) :
    s'.score id ≤ s'.total id := by
  have hgrow := h id
  have hold := hs id
  omega

lemma nodup_getActiveSfcStakers (s : AppStore B C) : s.getActiveSfcStakers.Nodup := by
  have hsub : s.getActiveSfcStakers.Sublist s.stakers.keys := by
    rw [← ExtTreeMap.map_fst_toList_eq_keys]
    exact List.filter_sublist.map _
  exact ExtTreeMap.nodup_keys.sublist hsub

/-- The block is stored: the credits so far are for earlier ones. -/
lemma Scored.setBlock (h : Scored net n s) {t : Timestamp} (ht : s.time n ≤ t) :
    Timed (n + 1) { s with blocks := s.blocks.set (n + 1) t } ∧
      ∀ id, Credited net n id { s with blocks := s.blocks.set (n + 1) t } := by
  have htime : ∀ k, ({ s with blocks := s.blocks.set (n + 1) t } : AppStore B C).time k =
      if k = n + 1 then t else s.time k := by
    intro k
    simp only [AppStore.time, LruTable.set, ExtTreeMap.getD_insert, LawfulEqCmp.compare_eq_iff_eq,
      eq_comm (a := n + 1)]
  refine ⟨⟨?_, ?_⟩, ?_⟩
  · intro k hk
    simp only [LruTable.set, ExtTreeMap.mem_insert, LawfulEqCmp.compare_eq_iff_eq]
    by_cases hlast : n + 1 = k
    · exact .inl hlast
    · exact .inr (h.timed.mem k (by omega))
  · intro k hk
    rw [htime, htime, if_neg (by omega)]
    split
    · obtain rfl : k = n := by omega
      exact ht
    · exact h.timed.mono k (by omega)
  · intro id
    refine (h.credited id).congr le_rfl ?_ (by exact le_rfl) (by exact rfl)
    intro k hk
    rw [htime, if_neg (by omega)]

/-- The loop over the stakers scores the block for each of them. -/
lemma updateAll_returns (h : Timed (n + 1) s) (hcredited : ∀ id, Credited net n id s)
    (hscore : ∀ id, s.score id ≤ s.total id) (blockParticipated : StakerID → Bool)
    {stakers : List StakerID} (hnodup : stakers.Nodup) :
    Returns (stakers.forM (updateValidationScore net epoch (n + 1) (s.time (n + 1) - s.time n)
      blockParticipated)) s fun _ s' => Scored net (n + 1) s' := by
  refine (Returns.forM (fun done s' => s'.blocks.table = s.blocks.table ∧ Within s s' ∧
    (∀ id ∈ done, Credited net (n + 1) id s') ∧ ∀ id, id ∉ done → Credited net n id s')
    ⟨rfl, .refl s, by simp, fun id _ => hcredited id⟩ ?_).mono ?_
  · intro done id rest t hsplit hI
    obtain ⟨hblocks, hwithin, hdone, hrest⟩ := hI
    have hid : id ∉ done := by
      intro hmem
      rw [hsplit] at hnodup
      exact (List.nodup_append.mp hnodup).2.2 id hmem id List.mem_cons_self rfl
    rw [← time_congr hblocks, ← time_congr hblocks]
    refine (updateValidationScore_returns (h.congr hblocks) blockParticipated).mono ?_
    intro _ t' hround
    refine ⟨hround.blocks.trans hblocks, hwithin.trans hround.within, ?_, ?_⟩
    · intro id' hid'
      rw [List.mem_append, List.mem_singleton] at hid'
      obtain hid' | rfl := hid'
      · exact (hdone id' hid').of_round hround fun heq => hid (heq ▸ hid')
      · exact (hrest id' hid).round hround
    · intro id' hid'
      rw [List.mem_append, List.mem_singleton, not_or] at hid'
      exact (hrest id' hid'.1).of_round hround hid'.2
  · rintro _ s' ⟨hblocks, hwithin, hdone, hrest⟩
    refine ⟨h.congr hblocks, ?_, hwithin.score_le hscore⟩
    intro id
    by_cases hid : id ∈ stakers
    · exact hdone id hid
    · exact (hrest id hid).congr n.le_succ (fun _ _ => rfl) (by omega) rfl

/-- The blocks and the credits are the same, and no more blocks are missed. -/
structure Keeps (s s' : AppStore B C) : Prop where
  blocks : s'.blocks.table = s.blocks.table
  credits : s'.credits = s.credits
  missed : ∀ id, (s'.missed id).num ≤ (s.missed id).num
  score : ∀ id, s'.score id ≤ s.score id

instance : Std.Refl (Keeps (B := B) (C := C)) :=
  ⟨fun _ => ⟨rfl, rfl, fun _ => le_rfl, fun _ => le_rfl⟩⟩

instance : IsTrans (AppStore B C) Keeps :=
  ⟨fun _ _ _ h h' => ⟨h'.blocks.trans h.blocks, h'.credits.trans h.credits,
    fun id => (h'.missed id).trans (h.missed id), fun id => (h'.score id).trans (h.score id)⟩⟩

lemma Scored.of_keeps (h : Scored net n s) (hkeeps : Keeps s s') : Scored net n s' where
  timed := h.timed.congr hkeeps.blocks
  credited id := by
    apply (h.credited id).congr le_rfl fun k _ => time_congr hkeeps.blocks k
    · exact Nat.add_le_add_right (hkeeps.missed id) n
    · rw [AppStore.creditsOf, hkeeps.credits, AppStore.creditsOf]
  score_le := (Within.of_le hkeeps.score hkeeps.credits).score_le h.score_le

/-- `updateValidationScores` returns: no block is missing, and no subtraction goes below zero. -/
lemma Scored.updateValidationScores (h : Scored net n s) {t : Timestamp} (ht : s.time n ≤ t)
    (epoch : ℕ) (outcome : BlockOutcome) :
    Returns (AppStore.updateValidationScores net epoch (n + 1) t outcome)
      { s with blocks := s.blocks.set (n + 1) t } fun _ s' => Scored net (n + 1) s' := by
  obtain ⟨htimed, hcredited⟩ := h.setBlock ht
  have hscore : ∀ id, ({ s with blocks := s.blocks.set (n + 1) t } : AppStore B C).score id ≤
    ({ s with blocks := s.blocks.set (n + 1) t } : AppStore B C).total id := h.score_le
  have hlast : ({ s with blocks := s.blocks.set (n + 1) t } : AppStore B C).time (n + 1) = t := by
    simp [AppStore.time, LruTable.set]
  generalize ({ s with blocks := s.blocks.set (n + 1) t } : AppStore B C) = s₀ at *
  refine .lift_bind (minus_of_le (Nat.le_add_left 1 n)) ?_
  refine (blockTime_returns (htimed.mem n n.le_succ)).bind ?_
  rintro _ s₁ ⟨rfl, hadds⟩
  have htime := time_congr hadds.blocks
  rw [← hlast]
  refine .lift_bind (minus_of_le (htimed.mono n n.lt_succ_self)) ?_
  refine .get_bind ?_
  have hcredited₁ : ∀ id, Credited net n id s₁ := by
    intro id
    apply (hcredited id).congr le_rfl fun k _ => htime k
    · rw [hadds.missed]
    · exact (hadds.creditsOf id).trans (List.append_nil _)
  rw [← htime, ← htime]
  refine (updateAll_returns (htimed.congr hadds.blocks) hcredited₁ (hadds.within.score_le hscore) _
    (nodup_getActiveSfcStakers s₁)).bind ?_
  intro _ s₂ hscored
  split
  · -- the scores of the last epoch are gone
    exact .modify (hscored.of_keeps ⟨rfl, rfl, fun _ => le_rfl, fun id => by simp [score]⟩)
  · exact .pure hscored

/-! ### Stakers -/

lemma keeps_getBlocksMissed (id : StakerID) :
    Steps (Keeps (B := B) (C := C)) (getBlocksMissed id) := by
  intro s m s' hrun
  obtain ⟨-, hadds⟩ := (getBlocksMissed_returns s id).of_run hrun
  have hcredits := hadds.credits.trans (List.append_nil _)
  refine ⟨hadds.blocks, hcredits, ?_, ?_⟩
  · intro id
    rw [hadds.missed]
  · intro id
    have hwithin := hadds.within id
    rw [total, total, AppStore.creditsOf, AppStore.creditsOf, hcredits] at hwithin
    omega

lemma keeps_resetBlocksMissed (id : StakerID) :
    Steps (Keeps (B := B) (C := C)) (resetBlocksMissed id) := by
  apply Steps.modify
  intro s
  refine ⟨rfl, rfl, ?_, fun _ => le_rfl⟩
  intro id'
  rw [missed_delBlockDowntime]
  split
  · exact Nat.zero_le _
  · exact le_rfl

lemma keeps_modify {g : AppStore B C → AppStore B C} (h : ∀ s, (g s).blocks = s.blocks ∧
    (g s).blockDowntime = s.blockDowntime ∧ (g s).credits = s.credits ∧
      ∀ id, (g s).score id ≤ s.score id) : Steps Keeps (modify g : AppM B C PUnit) := by
  apply Steps.modify
  intro s
  obtain ⟨hblocks, hdowntime, hcredits, hscore⟩ := h s
  refine ⟨congrArg _ hblocks, hcredits, ?_, hscore⟩
  intro id
  rw [AppStore.missed, hdowntime, AppStore.missed]

lemma keeps_getSfcStaker (id : StakerID) : Steps (Keeps (B := B) (C := C)) (getSfcStaker id) := by
  refine Steps.get.bind fun s => ?_
  split
  · exact Steps.throw _
  · exact Steps.pure _

lemma keeps_setSfcStaker (id : StakerID) (staker : Sfc.Activity) :
    Steps (Keeps (B := B) (C := C)) (setSfcStaker id staker) :=
  keeps_modify fun _ => ⟨rfl, rfl, rfl, fun _ => le_rfl⟩

lemma score_erase_le (t : ExtTreeMap StakerID ℕ) (id id' : StakerID) :
    (t.erase id).getD id' 0 ≤ t.getD id' 0 := by
  rw [ExtTreeMap.getD_erase]
  split
  · exact Nat.zero_le _
  · exact le_rfl

lemma keeps_processLog (epoch : ℕ) (log : Sfc.Effect) :
    Steps (Keeps (B := B) (C := C)) (processLog epoch log) := by
  cases log with
  | outOfRange => exact Steps.throw _
  | createsStaker id => exact keeps_setSfcStaker _ _
  | needsStaker id => exact (keeps_getSfcStaker id).bind fun _ => keeps_setSfcStaker _ _
  | nothing | delegates | needsDelegator | withdrawsDelegation => exact Steps.pure _
  | withdrawsStake id =>
    refine Steps.bind (keeps_modify (by exact fun _ => ⟨rfl, rfl, rfl, fun _ => le_rfl⟩))
      fun _ => ?_
    refine (keeps_resetBlocksMissed id).bind fun _ => ?_
    apply keeps_modify
    intro s
    refine ⟨rfl, rfl, rfl, fun id' => ?_⟩
    exact Nat.add_le_add (score_erase_le _ id id') (score_erase_le _ id id')

lemma keeps_writeCheater (id : StakerID) : Steps (Keeps (B := B) (C := C)) (writeCheater id) := by
  refine (keeps_getSfcStaker id).bind fun staker => ?_
  split
  · exact keeps_setSfcStaker _ _
  · exact Steps.pure _

lemma keeps_writeOffline (net : Economy) (it : StakerID × Sfc.Activity) :
    Steps (Keeps (B := B) (C := C)) (writeOffline net it) := by
  unfold writeOffline
  split
  · refine (keeps_getBlocksMissed it.1).bind fun gotMissed => ?_
    dsimp only
    split
    · exact keeps_setSfcStaker _ _
    · exact Steps.pure _
  · exact Steps.pure _

lemma keeps_processSfc (net : Economy) (epoch : ℕ) (outcome : BlockOutcome) :
    Steps (Keeps (B := B) (C := C)) (processSfc net epoch outcome) := by
  refine (Steps.forM (keeps_processLog epoch) _).bind fun _ => ?_
  refine (Steps.forM keeps_writeCheater _).bind fun _ => ?_
  split
  · refine Steps.get.bind fun s => ?_
    refine (Steps.forM (keeps_writeOffline net) _).bind fun _ => ?_
    exact Steps.get.bind fun s => keeps_modify fun _ => ⟨rfl, rfl, rfl, fun _ => le_rfl⟩
  · exact Steps.pure _

/-! ### The index of the SFC contract -/

/-- The stakers are those that the index knows, active or not as it says. -/
def Mirrors (s : AppStore B C) (known : Sfc.Known) : Prop :=
  ∀ stakerID : StakerID, s.stakers[stakerID]? = known.stakers stakerID

section

variable {known : Sfc.Known} (h : s.Mirrors known)
include h

lemma Mirrors.getSfcStaker_bind {α : Type} {f : Sfc.Activity → AppM B C α}
    {Q : α → AppStore B C → Prop} (hid : (known.stakers id).isSome)
    (hf : ∀ staker, known.stakers id = some staker → Returns (f staker) s Q) :
    Returns (getSfcStaker id >>= f) s Q := by
  obtain ⟨staker, hstaker⟩ := Option.isSome_iff_exists.mp hid
  apply Returns.bind (Q := fun a s' => a = staker ∧ s' = s)
  · apply Returns.get_bind
    rw [h id, hstaker]
    exact .pure ⟨rfl, rfl⟩
  · rintro _ _ ⟨rfl, rfl⟩
    exact hf _ hstaker

lemma Mirrors.setSfcStaker (staker : Sfc.Activity) :
    Returns (setSfcStaker id staker) s fun _ s' => s'.Mirrors
      { known with stakers := Function.update known.stakers id (some staker) } := by
  apply Returns.modify
  intro id'
  rw [← funext h]
  exact congrFun (Sfc.lookup_insert (fun r => r) s.stakers id staker) id'

lemma Mirrors.processLog {epoch : ℕ} {e : Sfc.Effect} (haccepts : known.Accepts e) :
    Returns (processLog epoch e) s fun _ s' => s'.Mirrors (known.after epoch e) := by
  cases e with
  | outOfRange => exact haccepts.elim
  | createsStaker id => exact h.setSfcStaker _
  | needsStaker id =>
    apply h.getSfcStaker_bind haccepts
    intro staker hstaker
    rw [Sfc.Known.after, hstaker]
    exact h.setSfcStaker _
  | withdrawsStake id =>
    apply Returns.modify_bind
    apply Returns.modify_bind
    apply Returns.modify
    intro id'
    rw [Sfc.Known.after, ← funext h]
    exact congrFun (Sfc.lookup_erase (fun r => r) s.stakers id) id'
  | nothing | needsDelegator | withdrawsDelegation => exact .pure h
  | delegates address id =>
    apply Returns.pure
    rw [Sfc.Known.after]
    split <;> exact h

lemma Mirrors.writeCheater (hid : (known.stakers id).isSome) :
    Returns (writeCheater id) s fun _ s' => s'.Mirrors (known.mark id) := by
  apply h.getSfcStaker_bind hid
  intro staker hstaker
  rw [Sfc.Known.mark, hstaker, Option.map_some]
  split_ifs
  · exact h.setSfcStaker _
  · apply Returns.pure
    rw [← hstaker, Function.update_eq_self]
    exact h

/-- The logs of a block and its cheaters, one after the other. -/
lemma Mirrors.processAll {env : Sfc.Env} {cheaters : List StakerID} {logs : List Sfc.Log}
    (hsafe : known.Safe env cheaters logs) :
    Returns (do
      (logs.map (·.effect env)).forM (AppStore.processLog env.epoch)
      cheaters.forM AppStore.writeCheater) s fun _ s' =>
        s'.Mirrors (cheaters.foldl Sfc.Known.mark (known.afterLogs env logs)) := by
  induction logs generalizing known s with
  | nil =>
    rw [List.map_nil, List.forM_eq_forM, List.forM_nil, pure_bind]
    induction cheaters generalizing known s with
    | nil => exact .pure h
    | cons id cheaters ih =>
      rw [List.forM_eq_forM, List.forM_cons]
      refine (h.writeCheater (hsafe id (by simp))).bind fun _ s' h' => ?_
      apply ih h'
      intro id' hid'
      rw [Sfc.Known.isSome_mark]
      exact hsafe id' (by simp [hid'])
  | cons l logs ih =>
    rw [List.map_cons, List.forM_eq_forM, List.forM_cons, bind_assoc]
    exact (h.processLog hsafe.1).bind fun _ s' h' => ih h' hsafe.2

end

/-- In a block that does not seal the epoch, the stakers become what the index makes of them. -/
theorem Mirrors.processSfc {b : Sfc.SfcBlock} {t t' : Sfc.Store} (h : s.Mirrors t.known)
    (hrun : Sfc.processSfc b.env t b.receipts b.cheaters = .ok t') (part : StakerID → Bool) :
    Returns (processSfc net b.env.epoch
      ⟨part, false, b.receipts.flatten.map (·.effect b.env), b.cheaters⟩) s fun _ s' =>
        s'.Mirrors t'.known := by
  have hsafe := (Sfc.foldlM_processLog_ok_iff b.env b.cheaters b.receipts.flatten t).mp
    ⟨t', by rwa [← Sfc.foldlM_receipts]⟩
  have hall := h.processAll hsafe
  rw [Sfc.known_of_processSfc hrun, Sfc.Known.afterBlock]
  simpa [AppStore.processSfc] using hall

/-! ### Runs -/

/-- Every block keeps the scores right. -/
lemma Scored.applyBlock (h : Scored net n s) {t : Timestamp} (ht : s.time n ≤ t)
    {outcome : BlockOutcome}
    (hrun : (AppStore.applyBlock net (n + 1) t outcome).run s = .ok (⟨⟩, s')) :
    Scored net (n + 1) s' := by
  rw [AppStore.applyBlock, AppStore.setBlock, run_modify_bind, endBlock, run_get_bind,
    StateT.run_bind] at hrun
  obtain ⟨⟨_, s₁⟩, hscores, hrest⟩ := bind_eq_ok_iff.mp hrun
  have hscored := (h.updateValidationScores ht s.epoch outcome).of_run hscores
  have hkeeps : Steps (Keeps (B := B) (C := C)) (do
      processSfc net s.epoch outcome
      if outcome.sealEpoch then incEpoch) := by
    refine (keeps_processSfc net s.epoch outcome).bind fun _ => ?_
    split
    · exact keeps_modify (by exact fun _ => ⟨rfl, rfl, rfl, fun _ => le_rfl⟩)
    · exact Steps.pure _
  exact hscored.of_keeps (hkeeps _ _ _ hrest)

lemma scored_genesis (time : Timestamp) (validators : List StakerID) :
    Scored net 0 (genesis B C time validators) := by
  refine ⟨⟨?_, by simp⟩, ?_, fun id => by simp [score, genesis]⟩
  · intro k hk
    simp [genesis, LruTable.set, Nat.le_zero.mp hk]
  · intro id
    exact ⟨0, by simp [AppStore.missed, genesis, LruTable.wrap], by simp [creditsOf, genesis],
      by simp [creditsOf, genesis], by simp [creditsOf, genesis], by simp [creditsOf, genesis],
      by simp [creditsOf, genesis]⟩

lemma Run.scored (h : Run net n s) : Scored net n s := by
  induction h with
  | genesis time validators => exact scored_genesis time validators
  | block h htime hrun ih => exact ih.applyBlock htime hrun
  | reopen h ih => exact ih.of_keeps ⟨rfl, rfl, fun _ => le_rfl, fun _ => le_rfl⟩

/-- Different intervals of a time that does not decrease add up to no more than the whole. -/
lemma sum_intervals_le {f : ℕ → ℕ} (hf : ∀ k < n, f k ≤ f (k + 1)) {l : List ℕ} (hl : l.Nodup)
    (hmem : ∀ k ∈ l, 1 ≤ k ∧ k ≤ n) : (l.map fun k => f k - f (k - 1)).sum + f 0 ≤ f n := by
  have htelescope : ∀ m ≤ n, ∑ k ∈ Finset.Icc 1 m, (f k - f (k - 1)) + f 0 = f m := by
    intro m
    induction m with
    | zero => simp
    | succ m ih =>
      intro hm
      have hstep := hf m hm
      have hprev := ih (Nat.le_of_succ_le hm)
      rw [Finset.sum_Icc_succ_top (Nat.le_add_left 1 m), Nat.add_sub_cancel]
      omega
  have hsub : l.toFinset ⊆ Finset.Icc 1 n := by
    intro k hk
    rw [Finset.mem_Icc]
    exact hmem k (List.mem_toFinset.mp hk)
  calc (l.map fun k => f k - f (k - 1)).sum + f 0
      = ∑ k ∈ l.toFinset, (f k - f (k - 1)) + f 0 := by rw [List.sum_toFinset _ hl]
    _ ≤ ∑ k ∈ Finset.Icc 1 n, (f k - f (k - 1)) + f 0 :=
        Nat.add_le_add_right (Finset.sum_le_sum_of_subset hsub) _
    _ = f n := htelescope n le_rfl

/-- No more time is credited than has passed. -/
lemma Scored.total_add_le (h : Scored net n s) (id : StakerID) :
    s.total id + (s.time 0).toNat ≤ (s.time n).toNat := by
  obtain ⟨last, hlast⟩ := h.credited id
  have hmem : ∀ k ∈ (s.creditsOf id).map (·.interval), 1 ≤ k ∧ k ≤ n := by
    intro k hk
    obtain ⟨c, hc, rfl⟩ := List.mem_map.mp hk
    have := hlast.interval c hc
    have := hlast.missed
    omega
  have hsum : s.total id = (((s.creditsOf id).map (·.interval)).map fun k =>
      (s.time k).toNat - (s.time (k - 1)).toNat).sum := by
    rw [total, List.map_map]
    congr 1
    apply List.map_congr_left
    intro c hc
    have hrange := hmem c.interval (List.mem_map_of_mem hc)
    have hmono := h.timed.mono (c.interval - 1) (by omega)
    rw [Nat.sub_add_cancel hrange.1] at hmono
    rw [hlast.diff c hc, UInt64.toNat_sub_of_le _ _ hmono]
    rfl
  rw [hsum]
  exact sum_intervals_le (f := fun k => (s.time k).toNat) (fun k hk => h.timed.mono k hk)
    hlast.nodup hmem

/-- After any blocks with times that do not decrease, whoever takes part and however the validators
change: no interval between blocks is credited twice to a staker, so what it was ever given is at
most the time since the genesis, and its scores in the tables are no more than that. In one block at
most the last interval and `BlockMissedLatency` earlier ones are credited. The scores of the next
block are computed without a subtraction below zero. -/
theorem Run.credited_once (h : Run net n s) (id : StakerID) :
    s.total id + (s.time 0).toNat ≤ (s.time n).toNat ∧
      s.dirtyValidationScore.getD id 0 + s.activeValidationScore.getD id 0 ≤ s.total id ∧
      ((s.creditsOf id).map (·.interval)).Nodup ∧
      (∀ c ∈ s.creditsOf id, 1 ≤ c.interval ∧ c.interval ≤ n ∧
        c.diff.toNat + (s.time (c.interval - 1)).toNat = (s.time c.interval).toNat) ∧
      (∀ b, (s.creditsOf id).countP (·.block = b) ≤ 1 + net.blockMissedLatency) ∧
      ∀ t epoch outcome, s.time n ≤ t → ∃ s', (do
        setBlock (n + 1) t
        updateValidationScores net epoch (n + 1) t outcome : AppM B C PUnit).run s =
          .ok (⟨⟩, s') := by
  have hscored := h.scored
  obtain ⟨last, hlast⟩ := hscored.credited id
  have hle := hlast.missed
  refine ⟨hscored.total_add_le id, hscored.score_le id, hlast.nodup, ?_, hlast.latency, ?_⟩
  · intro c hc
    have hinterval := hlast.interval c hc
    have hmono := hscored.timed.mono (c.interval - 1) (by omega)
    rw [Nat.sub_add_cancel hinterval.1] at hmono
    refine ⟨hinterval.1, by omega, ?_⟩
    rw [hlast.diff c hc, UInt64.toNat_sub_of_le _ _ hmono]
    exact Nat.sub_add_cancel hmono
  · intro t epoch outcome ht
    obtain ⟨_, s', hrun, -⟩ := hscored.updateValidationScores ht epoch outcome
    refine ⟨s', ?_⟩
    rw [AppStore.setBlock, run_modify_bind]
    exact hrun

end Loops

/-! ### A block missed and made up for -/

/-- A latency of three blocks. -/
def threeBlocks : Economy := ⟨3, ⟨1000, 0⟩⟩

/-- A block in which the staker 7 has confirmed events, or no one. -/
def outcomeWith (participated : Bool) : BlockOutcome :=
  ⟨fun id => participated && id = 7, false, [], []⟩

/-- The only validator has no events in the first block. -/
def firstMissed : Except AppFault (PUnit × AppStore (Cache.lru 2) (Cache.lru 2)) :=
  (applyBlock threeBlocks 1 150 (outcomeWith false)).run (genesis _ _ 100 [7])

/-- It takes part in the second one and is given the time of both. -/
def secondCredited : Except AppFault (PUnit × AppStore (Cache.lru 2) (Cache.lru 2)) :=
  firstMissed.bind fun r => (applyBlock threeBlocks 2 180 (outcomeWith true)).run r.2

lemma exists_run_secondCredited : ∃ s : AppStore (Cache.lru 2) (Cache.lru 2),
    Run threeBlocks 2 s ∧ s.total 7 = 80 ∧ s.dirtyValidationScore.getD 7 0 = 80 := by
  have htotal : secondCredited.map (fun r => (r.2.total 7, r.2.dirtyValidationScore.getD 7 0)) =
    .ok (80, 80) := by decide +kernel
  have htime : firstMissed.map (fun r => r.2.time 1) = .ok 150 := by decide +kernel
  obtain ⟨⟨_, s₂⟩, hsecond, htwo⟩ := map_eq_ok_iff.mp htotal
  obtain ⟨⟨_, s₁⟩, hfirst, hrun⟩ := bind_eq_ok_iff.mp hsecond
  have hone : s₁.time 1 = 150 := by
    rw [hfirst] at htime
    exact Except.ok.inj htime
  refine ⟨s₂, Run.block (Run.block (Run.genesis 100 [7]) (by decide) hfirst) ?_ hrun,
    Prod.mk.inj htwo⟩
  rw [hone]
  decide

theorem credited_once_secondCredited : ∃ s : AppStore (Cache.lru 2) (Cache.lru 2),
    Run threeBlocks 2 s ∧ s.total 7 = 80 ∧ s.dirtyValidationScore.getD 7 0 = 80 ∧
      s.total 7 + (s.time 0).toNat ≤ (s.time 2).toNat ∧
      s.dirtyValidationScore.getD 7 0 + s.activeValidationScore.getD 7 0 ≤ s.total 7 := by
  obtain ⟨s, hrun, htotal, hdirty⟩ := exists_run_secondCredited
  obtain ⟨htime, hscore, -⟩ := Run.credited_once hrun 7
  exact ⟨s, hrun, htotal, hdirty, htime, hscore⟩

end AppStore

end Lachesis
