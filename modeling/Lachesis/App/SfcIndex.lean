import Lachesis.Core.Rlp
import Lachesis.Core.Run
import Lachesis.Inter.Event
import Lachesis.Inter.EventSerializer
import Std.Data.ExtTreeMap

/-!
# The index of the SFC contract

`processSfc` brings the stakers and delegators that the node keeps up to date with the logs of the
SFC contract in a block, and marks the cheaters of the block. The caches of the records are written
through and left out here, and so is what is written when an epoch is sealed: it goes through the
records that exist.

A log without topics, a delegation without its second argument, and records that are missing where
none is looked for end the program. Which blocks do so is said by what the logs tell and by who is
known before the block.
-/

namespace Lachesis.Sfc

open Std Lachesis.Core

/-! ### Records -/

/-- `common.Address`, as the number that its 20 bytes write. -/
abbrev Address := ℕ

/-- `sfctype.SfcStaker` -/
structure Staker where
  createdEpoch : ℕ
  createdTime : Timestamp
  deactivatedEpoch : ℕ := 0
  deactivatedTime : Timestamp := 0
  stakeAmount : ℤ
  delegatedMe : ℤ
  address : Address
  status : UInt64 := 0
  deriving DecidableEq

/-- What of the record of a staker says whether it is active. -/
structure Activity where
  status : UInt64
  deactivatedEpoch : ℕ
  deriving DecidableEq, Repr

@[inherit_doc Activity]
def Staker.activity (s : Staker) : Activity := ⟨s.status, s.deactivatedEpoch⟩

/-- `SfcStaker.Ok` -/
def Activity.ok (a : Activity) : Bool := a.status = 0 && a.deactivatedEpoch = 0

def forkBit : UInt64 := 1

/-- `SfcStaker.HasFork` -/
def Staker.hasFork (s : Staker) : Bool := s.status &&& forkBit ≠ 0

/-- `sfctype.SfcDelegator` -/
structure Delegator where
  createdEpoch : ℕ
  createdTime : Timestamp
  deactivatedEpoch : ℕ := 0
  deactivatedTime : Timestamp := 0
  amount : ℤ
  toStakerID : StakerID
  deriving DecidableEq

/-- `SfcConstants` -/
structure Constants where
  shortGasPowerAllocPerSec : UInt64
  longGasPowerAllocPerSec : UInt64
  baseRewardPerSec : ℤ
  deriving DecidableEq

/-- The other tables with a number for each staker. -/
inductive StakerTable
  | blocksMissed
  | activeValidationScore
  | dirtyValidationScore
  | activeOriginationScore
  | dirtyOriginationScore
  | weightedDelegatorsFee
  | poi
  | claimedRewards
  | delegatorsClaimedRewards
  deriving DecidableEq

/-- The tables of `app.Store` that the logs change, and the statuses written to the contract. -/
structure Store where
  stakers : ExtTreeMap StakerID Staker
  delegators : ExtTreeMap Address Delegator
  stakerRecords : StakerTable → ExtTreeMap StakerID ℤ
  delegatorClaimedRewards : ExtTreeMap Address ℤ
  constants : ExtTreeMap ℕ Constants
  statuses : List (StakerID × UInt64)

namespace Store

def setSfcStaker (s : Store) (id : StakerID) (v : Staker) : Store :=
  { s with stakers := s.stakers.insert id v }

def setSfcDelegator (s : Store) (address : Address) (v : Delegator) : Store :=
  { s with delegators := s.delegators.insert address v }

/-- `App.delAllStakerData` -/
def delAllStakerData (s : Store) (id : StakerID) : Store :=
  { s with
    stakers := s.stakers.erase id
    stakerRecords := fun table => (s.stakerRecords table).erase id }

/-- `App.delAllDelegatorData` -/
def delAllDelegatorData (s : Store) (address : Address) : Store :=
  { s with
    delegators := s.delegators.erase address
    delegatorClaimedRewards := s.delegatorClaimedRewards.erase address }

def getSfcConstants (s : Store) (epoch : ℕ) : Constants := s.constants[epoch]?.getD ⟨0, 0, 0⟩

def setSfcConstants (s : Store) (epoch : ℕ) (v : Constants) : Store :=
  { s with constants := s.constants.insert epoch v }

/-- `Store.IncStakerClaimedRewards` and `Store.IncStakerDelegatorsClaimedRewards` -/
def incStakerRecord (s : Store) (table : StakerTable) (id : StakerID) (diff : ℤ) : Store :=
  { s with
    stakerRecords := fun table' =>
      if table' = table then
        (s.stakerRecords table).insert id ((s.stakerRecords table)[id]?.getD 0 + diff)
      else s.stakerRecords table' }

def incDelegatorClaimedRewards (s : Store) (address : Address) (diff : ℤ) : Store :=
  { s with
    delegatorClaimedRewards := s.delegatorClaimedRewards.insert address
      (s.delegatorClaimedRewards[address]?.getD 0 + diff) }

end Store

/-! ### Logs -/

/-- `sfcpos.Topics` -/
inductive Topic
  | createdStake
  | increasedStake
  | createdDelegation
  | preparedToWithdrawStake
  | preparedToWithdrawDelegation
  | withdrawnStake
  | withdrawnDelegation
  | claimedDelegationReward
  | claimedValidatorReward
  | updatedBaseRewardPerSec
  | updatedGasPowerAllocationRate
  | deactivatedStake
  | deactivatedDelegation
  | updatedStake
  | updatedDelegation
  deriving DecidableEq

/-- The ways `processSfc` panics. -/
inductive Panic
  | indexOutOfRange
  | nilDereference
  deriving DecidableEq, Repr

/-- `types.Log` -/
structure Log where
  address : Address
  topics : List HashBytes
  data : List UInt8

namespace Log

/-- Reading a topic. -/
def topic (l : Log) (i : ℕ) : Except Panic HashBytes :=
  match l.topics[i]? with
  | none => .error .indexOutOfRange
  | some t => .ok t

/-- A slice of the data. -/
def slice (l : Log) (low high : ℕ) : Except Panic (List UInt8) :=
  if high ≤ l.data.length then .ok ((l.data.take high).drop low) else .error .indexOutOfRange

end Log

/-- `new(big.Int).SetBytes` -/
def setBytes (bs : List UInt8) : ℕ := Rlp.beNat bs

/-- A staker in a topic: the last 32 bits. -/
def toStakerID (t : HashBytes) : StakerID := setBytes t.val % 2 ^ 64 % 2 ^ 32

/-- An address in a topic: the last 20 bytes. -/
def bytesToAddress (t : HashBytes) : Address := setBytes (t.val.drop 12)

/-- What `processSfc` is called with besides logs and cheaters. The hashes of the topics differ. -/
structure Env where
  contractAddress : Address
  topic : Topic → HashBytes
  topic_injective : Function.Injective topic
  epoch : ℕ
  blockTime : Timestamp

/-- How the body of an `if` in the loop ends: with the next `if`, or with `continue`. -/
inductive Flow
  | next
  | skip
  deriving DecidableEq

/-! ### The bodies -/

section

variable (env : Env) (l : Log) (s : Store)

/-- Add new stakers -/
def createdStake : Except Panic (Flow × Store) := do
  let stakerID := toStakerID (← l.topic 1)
  let address := bytesToAddress (← l.topic 2)
  let amount := setBytes (← l.slice 0 32)
  return (.next, s.setSfcStaker stakerID
    { address, createdEpoch := env.epoch, createdTime := env.blockTime, stakeAmount := amount,
      delegatedMe := 0 })

/-- Increase stakes -/
def increasedStake : Except Panic (Flow × Store) := do
  let stakerID := toStakerID (← l.topic 1)
  let newAmount := setBytes (← l.slice 0 32)
  match s.stakers[stakerID]? with
  | none => return (.skip, s)
  | some staker => return (.next, s.setSfcStaker stakerID { staker with stakeAmount := newAmount })

/-- Add new delegators -/
def createdDelegation : Except Panic (Flow × Store) := do
  let address := bytesToAddress (← l.topic 1)
  let toStakerID := toStakerID (← l.topic 2)
  let amount := setBytes (← l.slice 0 32)
  match s.stakers[toStakerID]? with
  | none => return (.skip, s)
  | some staker =>
    let staker := { staker with delegatedMe := staker.delegatedMe + amount }
    return (.next, (s.setSfcDelegator address
      { toStakerID, createdEpoch := env.epoch, createdTime := env.blockTime,
        amount }).setSfcStaker toStakerID staker)

/-- Deactivate stakes. Nothing checks that the staker is there. -/
def deactivatedStake : Except Panic (Flow × Store) := do
  let stakerID := toStakerID (← l.topic 1)
  match s.stakers[stakerID]? with
  | none => .error .nilDereference
  | some staker => return (.next, s.setSfcStaker stakerID
      { staker with deactivatedEpoch := env.epoch, deactivatedTime := env.blockTime })

/-- What a staker is left with when a delegation ends. -/
def Staker.undelegate (staker : Staker) (amount : ℤ) : Staker :=
  { staker with
    delegatedMe := if staker.delegatedMe - amount < 0 then 0 else staker.delegatedMe - amount }

/-- The amount of a delegation is taken off its staker, if that one is still there. -/
def Store.undelegate (s : Store) (delegator : Delegator) : Store :=
  match s.stakers[delegator.toStakerID]? with
  | none => s
  | some staker => s.setSfcStaker delegator.toStakerID (staker.undelegate delegator.amount)

/-- Deactivate delegators. Nothing checks that the delegator is there. -/
def deactivatedDelegation : Except Panic (Flow × Store) := do
  let address := bytesToAddress (← l.topic 1)
  match s.delegators[address]? with
  | none => .error .nilDereference
  | some delegator => return (.next, (s.undelegate delegator).setSfcDelegator address
      { delegator with deactivatedEpoch := env.epoch, deactivatedTime := env.blockTime })

/-- Update stake -/
def updatedStake : Except Panic (Flow × Store) := do
  let stakerID := toStakerID (← l.topic 1)
  let newAmount := setBytes (← l.slice 0 32)
  let newDelegatedMe := setBytes (← l.slice 32 64)
  match s.stakers[stakerID]? with
  | none => return (.skip, s)
  | some staker => return (.next, s.setSfcStaker stakerID
      { staker with stakeAmount := newAmount, delegatedMe := newDelegatedMe })

/-- Update delegation -/
def updatedDelegation : Except Panic (Flow × Store) := do
  let address := bytesToAddress (← l.topic 1)
  let newStakerID := toStakerID (← l.topic 3)
  let newAmount := setBytes (← l.slice 0 32)
  match s.delegators[address]? with
  | none => return (.skip, s)
  | some delegator => return (.next, s.setSfcDelegator address
      { delegator with amount := newAmount, toStakerID := newStakerID })

/-- Delete stakes -/
def withdrawnStake : Except Panic (Flow × Store) := do
  return (.next, s.delAllStakerData (toStakerID (← l.topic 1)))

/-- Delete delegators -/
def withdrawnDelegation : Except Panic (Flow × Store) := do
  return (.next, s.delAllDelegatorData (bytesToAddress (← l.topic 1)))

/-- Track changes of constants by SFC: the base reward. -/
def updatedBaseRewardPerSec : Except Panic (Flow × Store) := do
  let baseRewardPerSec := setBytes (← l.slice 0 32)
  return (.next, s.setSfcConstants env.epoch
    { s.getSfcConstants env.epoch with baseRewardPerSec })

/-- Track changes of constants by SFC: the allocation of gas power. -/
def updatedGasPowerAllocationRate : Except Panic (Flow × Store) := do
  let shortAllocationRate := setBytes (← l.slice 0 32)
  let longAllocationRate := setBytes (← l.slice 32 64)
  return (.next, s.setSfcConstants env.epoch
    { s.getSfcConstants env.epoch with
      shortGasPowerAllocPerSec := UInt64.ofNat shortAllocationRate
      longGasPowerAllocPerSec := UInt64.ofNat longAllocationRate })

/-- Track rewards of validators -/
def claimedValidatorReward : Except Panic (Flow × Store) := do
  let stakerID := toStakerID (← l.topic 1)
  let reward := setBytes (← l.slice 0 32)
  return (.next, s.incStakerRecord .claimedRewards stakerID reward)

/-- Track rewards of delegators -/
def claimedDelegationReward : Except Panic (Flow × Store) := do
  let address := bytesToAddress (← l.topic 1)
  let stakerID := toStakerID (← l.topic 2)
  let reward := setBytes (← l.slice 0 32)
  return (.next, (s.incDelegatorClaimedRewards address reward).incStakerRecord
    .delegatorsClaimedRewards stakerID reward)

end

/-! ### The loops -/

/-- An `if` of the loop over the logs: its topics, how many topics and how much data it asks for,
and its body. -/
structure Handler where
  topics : List Topic
  minTopics : ℕ
  minData : ℕ
  body : Log → Store → Except Panic (Flow × Store)

/-- The `if`s of the loop over the logs, in their order. -/
def handlers (env : Env) : List Handler :=
  [⟨[.createdStake], 3, 32, createdStake env⟩,
   ⟨[.increasedStake], 2, 32, increasedStake⟩,
   ⟨[.createdDelegation], 2, 32, createdDelegation env⟩,
   ⟨[.deactivatedStake, .preparedToWithdrawStake], 2, 0, deactivatedStake env⟩,
   ⟨[.deactivatedDelegation, .preparedToWithdrawDelegation], 2, 0, deactivatedDelegation env⟩,
   ⟨[.updatedStake], 2, 64, updatedStake⟩,
   ⟨[.updatedDelegation], 4, 32, updatedDelegation⟩,
   ⟨[.withdrawnStake], 2, 0, withdrawnStake⟩,
   ⟨[.withdrawnDelegation], 2, 0, withdrawnDelegation⟩,
   ⟨[.updatedBaseRewardPerSec], 0, 32, updatedBaseRewardPerSec env⟩,
   ⟨[.updatedGasPowerAllocationRate], 0, 64, updatedGasPowerAllocationRate env⟩,
   ⟨[.claimedValidatorReward], 2, 32, claimedValidatorReward⟩,
   ⟨[.claimedDelegationReward], 3, 32, claimedDelegationReward⟩]

/-- Go through the `if`s. The first topic is read for each of them. -/
def runHandlers (env : Env) (l : Log) : List Handler → Store → Except Panic Store
  | [], s => .ok s
  | h :: hs, s => do
    let t ← l.topic 0
    if t ∈ h.topics.map env.topic ∧ h.minTopics ≤ l.topics.length ∧ h.minData ≤ l.data.length then
      match ← h.body l s with
      | (.skip, s) => return s
      | (.next, s) => runHandlers env l hs s
    else runHandlers env l hs s

def processLog (env : Env) (s : Store) (l : Log) : Except Panic Store :=
  if l.address ≠ env.contractAddress then .ok s else runHandlers env l (handlers env) s

/-- One cheater. Nothing checks that the staker is there. -/
def writeCheater (s : Store) (stakerID : StakerID) : Except Panic Store :=
  match s.stakers[stakerID]? with
  | none => .error .nilDereference
  | some staker =>
    if staker.hasFork then .ok s
    else
      let status := staker.status ||| forkBit
      .ok { s.setSfcStaker stakerID { staker with status } with
            statuses := s.statuses ++ [(stakerID, status)] }

/-- `App.processSfc` in a block that does not seal the epoch. -/
def processSfc (env : Env) (s : Store) (receipts : List (List Log)) (cheaters : List StakerID) :
    Except Panic Store := do
  let s ← receipts.foldlM (fun s logs => logs.foldlM (processLog env) s) s
  cheaters.foldlM writeCheater s

/-! ### What a log tells -/

/-- What a log tells about the records, read off its topics and the length of its data. -/
inductive Effect
  | nothing
  /-- A topic is missing. -/
  | outOfRange
  | createsStaker (id : StakerID)
  | delegates (address : Address) (id : StakerID)
  | needsStaker (id : StakerID)
  | needsDelegator (address : Address)
  | withdrawsStake (id : StakerID)
  | withdrawsDelegation (address : Address)
  deriving DecidableEq

/-- What a log of the contract with this topic, arguments and size of data tells. -/
def Topic.effect (args : List HashBytes) (size : ℕ) : Topic → Effect
  | .createdStake =>
    match args with
    | a :: _ :: _ => if 32 ≤ size then .createsStaker (toStakerID a) else .nothing
    | _ => .nothing
  | .createdDelegation =>
    match args with
    | a :: b :: _ => if 32 ≤ size then .delegates (bytesToAddress a) (toStakerID b) else .nothing
    -- one argument passes the check, but two are read
    | [_] => if 32 ≤ size then .outOfRange else .nothing
    | [] => .nothing
  | .deactivatedStake | .preparedToWithdrawStake =>
    match args with
    | a :: _ => .needsStaker (toStakerID a)
    | [] => .nothing
  | .deactivatedDelegation | .preparedToWithdrawDelegation =>
    match args with
    | a :: _ => .needsDelegator (bytesToAddress a)
    | [] => .nothing
  | .withdrawnStake =>
    match args with
    | a :: _ => .withdrawsStake (toStakerID a)
    | [] => .nothing
  | .withdrawnDelegation =>
    match args with
    | a :: _ => .withdrawsDelegation (bytesToAddress a)
    | [] => .nothing
  | .increasedStake | .updatedStake | .updatedDelegation | .updatedBaseRewardPerSec
  | .updatedGasPowerAllocationRate | .claimedValidatorReward | .claimedDelegationReward => .nothing

def Topic.all : List Topic :=
  [.createdStake, .increasedStake, .createdDelegation, .preparedToWithdrawStake,
   .preparedToWithdrawDelegation, .withdrawnStake, .withdrawnDelegation, .claimedDelegationReward,
   .claimedValidatorReward, .updatedBaseRewardPerSec, .updatedGasPowerAllocationRate,
   .deactivatedStake, .deactivatedDelegation, .updatedStake, .updatedDelegation]

/-- What a log tells. -/
def Log.effect (env : Env) (l : Log) : Effect :=
  if l.address ≠ env.contractAddress then .nothing
  else match l.topics with
    | [] => .outOfRange
    | t :: args =>
      match Topic.all.find? (env.topic · = t) with
      | none => .nothing
      | some topic => topic.effect args l.data.length

/-- Who is known: the stakers with a record, whether they are active, and the delegators with a
record. -/
@[ext]
structure Known where
  stakers : StakerID → Option Activity
  delegators : Address → Bool

namespace Known

/-- The records that the effect of a log relies on are there. -/
def Accepts (known : Known) : Effect → Prop
  | .outOfRange => False
  | .needsStaker id => (known.stakers id).isSome
  | .needsDelegator address => known.delegators address
  | _ => True

/-- Who is known after a log with this effect. A delegation to a stranger is passed over. -/
def after (epoch : ℕ) (known : Known) : Effect → Known
  | .createsStaker id => { known with stakers := Function.update known.stakers id (some ⟨0, 0⟩) }
  | .needsStaker id =>
    { known with
      stakers := Function.update known.stakers id
        ((known.stakers id).map ({ · with deactivatedEpoch := epoch })) }
  | .delegates address id =>
    if (known.stakers id).isSome then
      { known with delegators := Function.update known.delegators address true }
    else known
  | .withdrawsStake id => { known with stakers := Function.update known.stakers id none }
  | .withdrawsDelegation address =>
    { known with delegators := Function.update known.delegators address false }
  | _ => known

/-- Every log finds what it relies on, given the logs before it, and in the end the cheaters are
known. -/
def Safe (env : Env) (cheaters : List StakerID) : Known → List Log → Prop
  | known, [] => ∀ id ∈ cheaters, (known.stakers id).isSome
  | known, l :: logs =>
    known.Accepts (l.effect env) ∧ Safe env cheaters (known.after env.epoch (l.effect env)) logs

/-- A cheater is marked, if it was not before. -/
def mark (known : Known) (id : StakerID) : Known :=
  { known with
    stakers := Function.update known.stakers id ((known.stakers id).map fun a =>
      if a.status &&& forkBit = 0 then { a with status := a.status ||| forkBit } else a) }

lemma isSome_mark (known : Known) (id id' : StakerID) :
    ((known.mark id).stakers id').isSome = (known.stakers id').isSome := by
  by_cases h : id' = id
  · simp [mark, h]
  · simp [mark, h]

end Known

def Store.known (s : Store) : Known where
  stakers id := s.stakers[id]?.map Staker.activity
  delegators address := s.delegators[address]?.isSome

lemma Store.known_stakers (s : Store) (id : StakerID) :
    s.known.stakers id = s.stakers[id]?.map Staker.activity := rfl

lemma Store.known_delegators (s : Store) (address : Address) :
    s.known.delegators address = s.delegators[address]?.isSome := rfl

lemma lookup_insert {α β : Type} (g : Option α → β) (m : ExtTreeMap ℕ α) (k : ℕ) (v : α) :
    (fun x : ℕ => g (m.insert k v)[x]?) = Function.update (fun x : ℕ => g m[x]?) k (g (some v)) := by
  funext x
  by_cases h : x = k
  · simp [h]
  · simp [ExtTreeMap.getElem?_insert, Ne.symm h, h]

lemma lookup_erase {α β : Type} (g : Option α → β) (m : ExtTreeMap ℕ α) (k : ℕ) :
    (fun x : ℕ => g (m.erase k)[x]?) = Function.update (fun x : ℕ => g m[x]?) k (g none) := by
  funext x
  by_cases h : x = k
  · simp [h]
  · simp [ExtTreeMap.getElem?_erase, Ne.symm h, h]

namespace Store

variable (s : Store)

lemma known_setSfcStaker (id : StakerID) (v : Staker) : (s.setSfcStaker id v).known =
    { s.known with stakers := Function.update s.known.stakers id (some v.activity) } :=
  Known.ext (lookup_insert (·.map Staker.activity) s.stakers id v) rfl

lemma known_setSfcDelegator (address : Address) (v : Delegator) :
    (s.setSfcDelegator address v).known =
      { s.known with delegators := Function.update s.known.delegators address true } :=
  Known.ext rfl (lookup_insert Option.isSome s.delegators address v)

lemma known_delAllStakerData (id : StakerID) : (s.delAllStakerData id).known =
    { s.known with stakers := Function.update s.known.stakers id none } :=
  Known.ext (lookup_erase (·.map Staker.activity) s.stakers id) rfl

lemma known_delAllDelegatorData (address : Address) : (s.delAllDelegatorData address).known =
    { s.known with delegators := Function.update s.known.delegators address false } :=
  Known.ext rfl (lookup_erase Option.isSome s.delegators address)

lemma known_setSfcStaker_of_some {id : StakerID} {old v : Staker} (h : s.stakers[id]? = some old)
    (hv : v.activity = old.activity) : (s.setSfcStaker id v).known = s.known := by
  have hknown : s.known.stakers id = some v.activity := by
    rw [known_stakers, h, Option.map_some, hv]
  rw [known_setSfcStaker, ← hknown, Function.update_eq_self]

lemma known_setSfcDelegator_of_some {address : Address} {old : Delegator}
    (h : s.delegators[address]? = some old) (v : Delegator) :
    (s.setSfcDelegator address v).known = s.known := by
  have hknown : s.known.delegators address = true := by
    rw [known_delegators, h, Option.isSome_some]
  rw [known_setSfcDelegator, ← hknown, Function.update_eq_self]

lemma delegators_undelegate (d : Delegator) : (s.undelegate d).delegators = s.delegators := by
  unfold undelegate
  split <;> rfl

lemma known_undelegate (d : Delegator) : (s.undelegate d).known = s.known := by
  unfold undelegate
  split
  · rfl
  · next h => exact s.known_setSfcStaker_of_some h rfl

end Store

/-! ### One log -/

section

variable {env : Env} {l : Log} {s : Store} {t : HashBytes} {args : List HashBytes} {k : Topic}

lemma mem_map_topic_iff (env : Env) {k : Topic} {ks : List Topic} :
    env.topic k ∈ ks.map env.topic ↔ k ∈ ks :=
  List.mem_map_of_injective env.topic_injective

lemma topic_zero (ht : l.topics = t :: args) : l.topic 0 = .ok t := by
  simp [Log.topic, ht]

lemma runHandlers_of_notMem (ht : l.topics = t :: args) {hs : List Handler}
    (hnot : ∀ h ∈ hs, t ∉ h.topics.map env.topic) : runHandlers env l hs s = .ok s := by
  induction hs with
  | nil => rfl
  | cons h hs ih =>
    have hh := hnot h (by simp)
    simp only [runHandlers, topic_zero ht, bind, Except.bind, hh, false_and, if_false]
    exact ih fun h' hmem => hnot h' (by simp [hmem])

/-- Only the handler of the first topic is run. -/
lemma runHandlers_eq (ht : l.topics = env.topic k :: args) {hs : List Handler} {h : Handler}
    (hk : hs.filter (fun h' => k ∈ h'.topics) = [h]) :
    runHandlers env l hs s =
      if h.minTopics ≤ l.topics.length ∧ h.minData ≤ l.data.length then
        (h.body l s).map Prod.snd else .ok s := by
  induction hs with
  | nil => simp at hk
  | cons h' hs ih =>
    rw [List.filter_cons] at hk
    by_cases hmem : k ∈ h'.topics
    · rw [if_pos (decide_eq_true hmem), List.cons.injEq, List.filter_eq_nil_iff] at hk
      obtain ⟨rfl, hothers⟩ := hk
      have hrest : ∀ s, runHandlers env l hs s = .ok s := fun s =>
        runHandlers_of_notMem ht fun h'' hin htopic =>
          hothers h'' hin (decide_eq_true ((mem_map_topic_iff env).mp htopic))
      simp only [runHandlers, topic_zero ht, bind, Except.bind, (mem_map_topic_iff env).mpr hmem,
        true_and, hrest]
      split_ifs
      · cases h'.body l s with
        | error p => rfl
        | ok r =>
          obtain ⟨flow, s'⟩ := r
          cases flow <;> rfl
      · rfl
    · rw [if_neg (by simpa using hmem)] at hk
      simp only [runHandlers, topic_zero ht, bind, Except.bind, mem_map_topic_iff env, hmem,
        false_and, if_false]
      exact ih hk

/-- The result of a log with this effect. -/
structure Follows (env : Env) (s : Store) (e : Effect) (r : Except Panic Store) : Prop where
  accepted : s.known.Accepts e → ∃ s', r = .ok s' ∧ s'.known = s.known.after env.epoch e
  rejected : ¬ s.known.Accepts e → ∃ p, r = .error p

lemma Follows.ok {s' : Store} {e : Effect} (haccepts : s.known.Accepts e)
    (h : s'.known = s.known.after env.epoch e) : Follows env s e (.ok s') :=
  ⟨fun _ => ⟨s', rfl, h⟩, fun hnot => absurd haccepts hnot⟩

lemma Follows.error {e : Effect} {p : Panic} (hnot : ¬ s.known.Accepts e) :
    Follows env s e (.error p) :=
  ⟨fun h => absurd h hnot, fun _ => ⟨p, rfl⟩⟩

lemma Follows.unchanged (env : Env) (s : Store) : Follows env s .nothing (.ok s) := .ok trivial rfl

variable {a : HashBytes}

lemma topic_one (ht : l.topics = t :: a :: args) : l.topic 1 = .ok a := by
  simp [Log.topic, ht]

lemma topic_two {b : HashBytes} (ht : l.topics = t :: a :: b :: args) : l.topic 2 = .ok b := by
  simp [Log.topic, ht]

lemma topic_two_of_one (ht : l.topics = [t, a]) : l.topic 2 = .error .indexOutOfRange := by
  simp [Log.topic, ht]

lemma topic_three {b c : HashBytes} (ht : l.topics = t :: a :: b :: c :: args) :
    l.topic 3 = .ok c := by
  simp [Log.topic, ht]

lemma slice_ok {low high : ℕ} (h : high ≤ l.data.length) :
    l.slice low high = .ok ((l.data.take high).drop low) := if_pos h

/-- A log has the effect of its topic if the body of the `if` does, and if nothing is told by a log
that is too short for it. -/
lemma follows_runHandlers (ht : l.topics = env.topic k :: args) {h : Handler} {e : Effect}
    (hk : (handlers env).filter (fun h' => k ∈ h'.topics) = [h])
    (hshort : ¬ (h.minTopics ≤ args.length + 1 ∧ h.minData ≤ l.data.length) → e = .nothing)
    (hbody : h.minTopics ≤ args.length + 1 → h.minData ≤ l.data.length →
      Follows env s e ((h.body l s).map Prod.snd)) :
    Follows env s e (runHandlers env l (handlers env) s) := by
  rw [runHandlers_eq ht hk, ht, List.length_cons]
  split_ifs with hguard
  · exact hbody hguard.1 hguard.2
  · rw [hshort hguard]
    exact .unchanged env s

lemma follows_createdStake (ht : l.topics = env.topic .createdStake :: args) :
    Follows env s (Topic.createdStake.effect args l.data.length)
      (runHandlers env l (handlers env) s) := by
  refine follows_runHandlers ht rfl ?_ ?_
  · match args with
    | [] => simp [Topic.effect]
    | [a] => simp [Topic.effect]
    | a :: b :: rest =>
      intro hguard
      simp only [Topic.effect]
      rw [if_neg fun hdata => hguard ⟨by simp, hdata⟩]
  · intro htopics hdata
    match args with
    | [] => simp at htopics
    | [a] => simp at htopics
    | a :: b :: rest =>
      simp only [Topic.effect, createdStake, topic_one ht, topic_two ht, slice_ok hdata, bind,
        Except.bind, if_pos hdata]
      exact .ok trivial (s.known_setSfcStaker _ _)

lemma follows_createdDelegation (ht : l.topics = env.topic .createdDelegation :: args) :
    Follows env s (Topic.createdDelegation.effect args l.data.length)
      (runHandlers env l (handlers env) s) := by
  refine follows_runHandlers ht rfl ?_ ?_
  · intro hguard
    match args with
    | [] => rfl
    | [a] =>
      simp only [Topic.effect]
      rw [if_neg fun hdata => hguard ⟨by simp, hdata⟩]
    | a :: b :: rest =>
      simp only [Topic.effect]
      rw [if_neg fun hdata => hguard ⟨by simp, hdata⟩]
  · intro htopics hdata
    match args with
    | [] => simp at htopics
    | [a] =>
      -- the third topic is read behind a check for the second
      simp only [Topic.effect, createdDelegation, topic_one ht, topic_two_of_one ht, bind,
        Except.bind, if_pos hdata]
      exact .error id
    | a :: b :: rest =>
      simp only [Topic.effect, createdDelegation, topic_one ht, topic_two ht, slice_ok hdata, bind,
        Except.bind, if_pos hdata]
      cases hstaker : s.stakers[toStakerID b]? with
      | none =>
        refine .ok trivial ?_
        rw [Known.after, s.known_stakers, hstaker]
        rfl
      | some staker =>
        refine .ok trivial ?_
        rw [Known.after, if_pos (by rw [s.known_stakers, hstaker]; rfl)]
        exact Eq.trans (Store.known_setSfcStaker_of_some _ hstaker (by rfl))
          (s.known_setSfcDelegator _ _)

lemma deactivatedStake_follows (ht : l.topics = t :: a :: args) :
    Follows env s (.needsStaker (toStakerID a)) ((deactivatedStake env l s).map Prod.snd) := by
  simp only [deactivatedStake, topic_one ht, bind, Except.bind]
  cases hstaker : s.stakers[toStakerID a]? with
  | none =>
    apply Follows.error
    rw [Known.Accepts, s.known_stakers, hstaker]
    exact Bool.false_ne_true
  | some staker =>
    apply Follows.ok
    · rw [Known.Accepts, s.known_stakers, hstaker]
      rfl
    · rw [Known.after, s.known_stakers, hstaker]
      exact s.known_setSfcStaker _ _

lemma deactivatedDelegation_follows (ht : l.topics = t :: a :: args) :
    Follows env s (.needsDelegator (bytesToAddress a))
      ((deactivatedDelegation env l s).map Prod.snd) := by
  simp only [deactivatedDelegation, topic_one ht, bind, Except.bind]
  cases hdelegator : s.delegators[bytesToAddress a]? with
  | none =>
    apply Follows.error
    rw [Known.Accepts, s.known_delegators, hdelegator]
    exact Bool.false_ne_true
  | some delegator =>
    apply Follows.ok
    · rw [Known.Accepts, s.known_delegators, hdelegator, Option.isSome_some]
    · rw [← s.delegators_undelegate delegator] at hdelegator
      exact (Store.known_setSfcDelegator_of_some _ hdelegator _).trans
        (s.known_undelegate delegator)

lemma increasedStake_follows (ht : l.topics = t :: a :: args) (hdata : 32 ≤ l.data.length) :
    Follows env s .nothing ((increasedStake l s).map Prod.snd) := by
  simp only [increasedStake, topic_one ht, slice_ok hdata, bind, Except.bind]
  cases hstaker : s.stakers[toStakerID a]? with
  | none => exact .unchanged env s
  | some staker => exact .ok trivial (s.known_setSfcStaker_of_some hstaker rfl)

lemma updatedStake_follows (ht : l.topics = t :: a :: args) (hdata : 64 ≤ l.data.length) :
    Follows env s .nothing ((updatedStake l s).map Prod.snd) := by
  simp only [updatedStake, topic_one ht, slice_ok hdata,
    slice_ok (show 32 ≤ l.data.length by omega), bind, Except.bind]
  cases hstaker : s.stakers[toStakerID a]? with
  | none => exact .unchanged env s
  | some staker => exact .ok trivial (s.known_setSfcStaker_of_some hstaker rfl)

lemma updatedDelegation_follows {b c : HashBytes} (ht : l.topics = t :: a :: b :: c :: args)
    (hdata : 32 ≤ l.data.length) :
    Follows env s .nothing ((updatedDelegation l s).map Prod.snd) := by
  simp only [updatedDelegation, topic_one ht, topic_three ht, slice_ok hdata, bind, Except.bind]
  cases hdelegator : s.delegators[bytesToAddress a]? with
  | none => exact .unchanged env s
  | some delegator => exact .ok trivial (s.known_setSfcDelegator_of_some hdelegator _)

lemma updatedGasPowerAllocationRate_follows (hdata : 64 ≤ l.data.length) :
    Follows env s .nothing ((updatedGasPowerAllocationRate env l s).map Prod.snd) := by
  simp only [updatedGasPowerAllocationRate, slice_ok hdata,
    slice_ok (show 32 ≤ l.data.length by omega), bind, Except.bind]
  exact .ok trivial rfl

lemma withdrawnStake_follows (ht : l.topics = t :: a :: args) :
    Follows env s (.withdrawsStake (toStakerID a)) ((withdrawnStake l s).map Prod.snd) := by
  simp only [withdrawnStake, topic_one ht, bind, Except.bind]
  exact .ok trivial (s.known_delAllStakerData _)

lemma withdrawnDelegation_follows (ht : l.topics = t :: a :: args) :
    Follows env s (.withdrawsDelegation (bytesToAddress a))
      ((withdrawnDelegation l s).map Prod.snd) := by
  simp only [withdrawnDelegation, topic_one ht, bind, Except.bind]
  exact .ok trivial (s.known_delAllDelegatorData _)

/-- The `if` of a topic with one argument at least. -/
lemma follows_oneArg {body : Log → Store → Except Panic (Flow × Store)} {topics : List Topic}
    {size : ℕ} (ht : l.topics = env.topic k :: args)
    (hk : (handlers env).filter (fun h' => k ∈ h'.topics) = [⟨topics, 2, size, body⟩])
    (hnil : k.effect [] l.data.length = .nothing)
    (hsize : ¬ size ≤ l.data.length → k.effect args l.data.length = .nothing)
    (hbody : ∀ a rest, args = a :: rest → size ≤ l.data.length →
      Follows env s (k.effect args l.data.length) ((body l s).map Prod.snd)) :
    Follows env s (k.effect args l.data.length) (runHandlers env l (handlers env) s) := by
  refine follows_runHandlers ht hk ?_ ?_
  · intro hguard
    cases args with
    | nil => exact hnil
    | cons a rest => exact hsize fun hdata => hguard ⟨by simp, hdata⟩
  · intro htopics hdata
    cases args with
    | nil => simp at htopics
    | cons a rest => exact hbody a rest rfl hdata

/-- Every handler does what its topic tells, or panics. -/
lemma follows_topic (ht : l.topics = env.topic k :: args) :
    Follows env s (k.effect args l.data.length) (runHandlers env l (handlers env) s) := by
  cases k with
  | createdStake => exact follows_createdStake ht
  | createdDelegation => exact follows_createdDelegation ht
  | increasedStake =>
    refine follows_oneArg ht rfl rfl (fun _ => rfl) ?_
    rintro a rest rfl hdata
    exact increasedStake_follows ht hdata
  | deactivatedStake | preparedToWithdrawStake =>
    refine follows_oneArg ht rfl rfl (fun hsize => absurd (Nat.zero_le _) hsize) ?_
    rintro a rest rfl -
    exact deactivatedStake_follows ht
  | deactivatedDelegation | preparedToWithdrawDelegation =>
    refine follows_oneArg ht rfl rfl (fun hsize => absurd (Nat.zero_le _) hsize) ?_
    rintro a rest rfl -
    exact deactivatedDelegation_follows ht
  | withdrawnStake =>
    refine follows_oneArg ht rfl rfl (fun hsize => absurd (Nat.zero_le _) hsize) ?_
    rintro a rest rfl -
    exact withdrawnStake_follows ht
  | withdrawnDelegation =>
    refine follows_oneArg ht rfl rfl (fun hsize => absurd (Nat.zero_le _) hsize) ?_
    rintro a rest rfl -
    exact withdrawnDelegation_follows ht
  | updatedStake =>
    refine follows_oneArg ht rfl rfl (fun _ => rfl) ?_
    rintro a rest rfl hdata
    exact updatedStake_follows ht hdata
  | updatedDelegation =>
    refine follows_runHandlers ht rfl (fun _ => rfl) ?_
    intro htopics hdata
    match args with
    | [] => simp at htopics
    | [a] => simp at htopics
    | [a, b] => simp at htopics
    | a :: b :: c :: rest => exact updatedDelegation_follows ht hdata
  | updatedBaseRewardPerSec =>
    refine follows_runHandlers ht rfl (fun _ => rfl) ?_
    intro _ hdata
    simp only [updatedBaseRewardPerSec, slice_ok hdata, bind, Except.bind]
    exact .ok trivial rfl
  | updatedGasPowerAllocationRate =>
    refine follows_runHandlers ht rfl (fun _ => rfl) ?_
    intro _ hdata
    exact updatedGasPowerAllocationRate_follows hdata
  | claimedValidatorReward =>
    refine follows_oneArg ht rfl rfl (fun _ => rfl) ?_
    rintro a rest rfl hdata
    simp only [claimedValidatorReward, topic_one ht, slice_ok hdata, bind, Except.bind]
    exact .ok trivial rfl
  | claimedDelegationReward =>
    refine follows_runHandlers ht rfl (fun _ => rfl) ?_
    intro htopics hdata
    match args with
    | [] => simp at htopics
    | [a] => simp at htopics
    | a :: b :: rest =>
      simp only [claimedDelegationReward, topic_one ht, topic_two ht, slice_ok hdata, bind,
        Except.bind]
      exact .ok trivial rfl

lemma Topic.mem_all (k : Topic) : k ∈ Topic.all := by
  cases k <;> decide

lemma follows_processLog (env : Env) (s : Store) (l : Log) :
    Follows env s (l.effect env) (processLog env s l) := by
  rw [Log.effect, processLog]
  split_ifs
  · exact .unchanged env s
  · cases ht : l.topics with
    | nil =>
      have hread : l.topic 0 = .error .indexOutOfRange := by simp [Log.topic, ht]
      simp only [handlers, runHandlers, hread, bind, Except.bind]
      exact .error id
    | cons t args =>
      cases hfind : Topic.all.find? (env.topic · = t) with
      | none =>
        have hother : ∀ k, env.topic k ≠ t := by
          intro k hk
          have hnot := List.find?_eq_none.mp hfind k k.mem_all
          exact hnot (decide_eq_true hk)
        have hskip : runHandlers env l (handlers env) s = .ok s := by
          apply runHandlers_of_notMem ht
          intro h _ hin
          obtain ⟨k, -, hk⟩ := List.mem_map.mp hin
          exact hother k hk
        simp only [hfind, hskip]
        exact .unchanged env s
      | some k =>
        have hk : env.topic k = t := by simpa using List.find?_some hfind
        simp only [hfind]
        exact follows_topic (hk ▸ ht)

end

/-! ### A block -/

/-- A cheater is marked if there is a record for it. -/
lemma writeCheater_spec (s : Store) (id : StakerID) :
    if (s.known.stakers id).isSome then ∃ s', writeCheater s id = .ok s' ∧ s'.known = s.known.mark id
    else writeCheater s id = .error .nilDereference := by
  rw [writeCheater, Known.mark, s.known_stakers]
  cases hstaker : s.stakers[id]? with
  | none => rfl
  | some staker =>
    rw [Option.map_some, if_pos Option.isSome_some, Option.map_some]
    dsimp only [Staker.hasFork]
    by_cases hfork : staker.status &&& forkBit = 0
    · refine ⟨_, if_neg (by simp [hfork]), ?_⟩
      rw [if_pos (by exact hfork)]
      exact s.known_setSfcStaker _ _
    · refine ⟨s, if_pos (decide_eq_true hfork), ?_⟩
      rw [if_neg (by exact hfork), ← s.known_setSfcStaker, s.known_setSfcStaker_of_some hstaker rfl]

lemma foldlM_writeCheater_ok_iff (cheaters : List StakerID) (s : Store) :
    (∃ s', cheaters.foldlM writeCheater s = .ok s') ↔
      ∀ id ∈ cheaters, (s.known.stakers id).isSome := by
  induction cheaters generalizing s with
  | nil => exact ⟨fun _ _ h => absurd h List.not_mem_nil, fun _ => ⟨s, rfl⟩⟩
  | cons id cheaters ih =>
    have hspec := writeCheater_spec s id
    rw [List.foldlM_cons, List.forall_mem_cons]
    split_ifs at hspec with hknown
    · obtain ⟨s', hwrite, hmark⟩ := hspec
      rw [hwrite]
      simp only [bind, Except.bind, ih, hmark, Known.isSome_mark, hknown, true_and]
    · rw [hspec]
      simp [bind, Except.bind, hknown]

/-- The logs and then the cheaters go through if and only if every log finds what it relies on. -/
lemma foldlM_processLog_ok_iff (env : Env) (cheaters : List StakerID) (logs : List Log)
    (s : Store) :
    (∃ s', (logs.foldlM (processLog env) s >>= cheaters.foldlM writeCheater) = .ok s') ↔
      Known.Safe env cheaters s.known logs := by
  induction logs generalizing s with
  | nil => exact foldlM_writeCheater_ok_iff cheaters s
  | cons l logs ih =>
    have hstep := follows_processLog env s l
    rw [List.foldlM_cons, Known.Safe]
    by_cases haccepts : s.known.Accepts (l.effect env)
    · obtain ⟨s', hlog, hknown⟩ := hstep.accepted haccepts
      rw [hlog, ← hknown, ← ih s']
      simp only [haccepts, true_and]
      rfl
    · obtain ⟨p, hlog⟩ := hstep.rejected haccepts
      rw [hlog]
      simp [bind, Except.bind, haccepts]

lemma foldlM_receipts (env : Env) (receipts : List (List Log)) (s : Store) :
    receipts.foldlM (fun s logs => logs.foldlM (processLog env) s) s =
      receipts.flatten.foldlM (processLog env) s := by
  induction receipts generalizing s with
  | nil => rfl
  | cons logs receipts ih =>
    rw [List.flatten_cons, List.foldlM_append, List.foldlM_cons]
    congr 1
    funext s'
    exact ih s'

/-- The SFC index goes through a block without a panic if and only if each log has its topics and
finds the records that it needs, and the cheaters still have theirs. -/
theorem processSfc_ok_iff (env : Env) (s : Store) (receipts : List (List Log))
    (cheaters : List StakerID) :
    (∃ s', processSfc env s receipts cheaters = .ok s') ↔
      Known.Safe env cheaters s.known receipts.flatten := by
  rw [processSfc, foldlM_receipts]
  exact foldlM_processLog_ok_iff env cheaters receipts.flatten s

/-! ### Runs of blocks -/

lemma known_of_writeCheater {id : StakerID} {s s' : Store} (h : writeCheater s id = .ok s') :
    s'.known = s.known.mark id := by
  have hspec := writeCheater_spec s id
  rw [h] at hspec
  split_ifs at hspec
  obtain ⟨_, hs', hknown⟩ := hspec
  cases hs'
  exact hknown

/-- Who is known after the logs. -/
def Known.afterLogs (env : Env) (known : Known) (logs : List Log) : Known :=
  logs.foldl (fun known l => known.after env.epoch (l.effect env)) known

lemma known_of_processLog {env : Env} {l : Log} {s s' : Store} (h : processLog env s l = .ok s') :
    s'.known = s.known.after env.epoch (l.effect env) := by
  have hstep := follows_processLog env s l
  rw [h] at hstep
  by_cases haccepts : s.known.Accepts (l.effect env)
  · obtain ⟨_, hs', hknown⟩ := hstep.accepted haccepts
    cases hs'
    exact hknown
  · obtain ⟨p, herror⟩ := hstep.rejected haccepts
    cases herror

/-- What `processSfc` is given for a block. -/
structure SfcBlock where
  env : Env
  receipts : List (List Log)
  cheaters : List StakerID

/-- Who is known after a block. -/
def Known.afterBlock (known : Known) (b : SfcBlock) : Known :=
  b.cheaters.foldl mark (known.afterLogs b.env b.receipts.flatten)

lemma known_of_processSfc {b : SfcBlock} {s s' : Store}
    (h : processSfc b.env s b.receipts b.cheaters = .ok s') : s'.known = s.known.afterBlock b := by
  rw [processSfc, foldlM_receipts] at h
  obtain ⟨s₁, hlogs, hcheaters⟩ := Core.bind_eq_ok_iff.mp h
  have hafter : s₁.known = s.known.afterLogs b.env b.receipts.flatten :=
    Core.view_foldlM (fun _ _ _ => known_of_processLog) hlogs
  rw [Core.view_foldlM (fun _ _ _ => known_of_writeCheater) hcheaters, hafter, Known.afterBlock]

/-- A word that writes a small number. -/
def word (n : UInt8) : HashBytes := ⟨List.replicate 31 0 ++ [n], rfl⟩

/-- The hash of a topic in the examples: its place in the list. -/
def Topic.number (k : Topic) : HashBytes := word (UInt8.ofNat (Topic.all.idxOf k))

/-- The contract 9 in epoch 2. -/
def exampleEnv : Env where
  contractAddress := 9
  topic := Topic.number
  topic_injective := by
    have hnumbers : ∀ a ∈ Topic.all, ∀ b ∈ Topic.all, a.number = b.number → a = b := by decide
    intro a b h
    exact hnumbers a a.mem_all b b.mem_all h
  epoch := 2
  blockTime := 50

/-- A log of the contract, with numbers as its arguments. -/
def exampleLog (k : Topic) (args : List UInt8) (size : ℕ) : Log where
  address := 9
  topics := k.number :: args.map word
  data := List.replicate size 1

def emptyStore : Store where
  stakers := ∅
  delegators := ∅
  stakerRecords _ := ∅
  delegatorClaimedRewards := ∅
  constants := ∅
  statuses := []

/-- How a block ends, if not well. -/
def panicOf (logs : List Log) (cheaters : List StakerID) : Option Panic :=
  match processSfc exampleEnv emptyStore [logs] cheaters with
  | .ok _ => none
  | .error p => some p

/-- A log without topics, a delegation without a staker, a deactivation of a stake or a delegation
that nobody knows, and a cheater whose stake was withdrawn in the block each end the program. -/
theorem not_processSfc_ok :
    panicOf [⟨9, [], []⟩] [] = some .indexOutOfRange ∧
    panicOf [exampleLog .createdDelegation [7] 32] [] = some .indexOutOfRange ∧
    panicOf [exampleLog .deactivatedStake [1] 0] [] = some .nilDereference ∧
    panicOf [exampleLog .deactivatedDelegation [7] 0] [] = some .nilDereference ∧
    panicOf [exampleLog .createdStake [1, 7] 32, exampleLog .withdrawnStake [1] 0] [1] =
      some .nilDereference := by
  decide +kernel

end Lachesis.Sfc
