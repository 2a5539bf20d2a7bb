import Lachesis.Core.Run
import Lachesis.Eventcheck.Basiccheck
import Mathlib.Tactic.FinCases

/-!
# Gas power

A validator gains gas power with time, in proportion to its stake and up to a limit, and its events
use it. `gaspowercheck` compares what an event declares with what its self-parent left; there is a
short-term and a long-term limit.

The products are computed with big integers and cut to 64 bits, the sums are `uint64`.
-/

namespace Lachesis

open Lachesis.Core

namespace Gaspowercheck

/-- `gaspowercheck.Config` -/
structure Config where
  idx : ℕ
  allocPerSec : UInt64
  maxAllocPeriod : Timestamp
  startupAllocPeriod : Timestamp
  minStartupGas : UInt64

/-- `ValidationContext` -/
structure ValidationContext where
  epoch : UInt32
  configs : Fin 2 → Config
  validators : Validators
  prevEpochLastHeaders : StakerID → Option EventHeaderData
  prevEpochEndTime : Timestamp
  prevEpochRefunds : StakerID → UInt64

/-- The errors of `gaspowercheck`, and `epochcheck.ErrNotRelevant`. -/
inductive Err
  | wrongGasPowerLeft
  | notRelevant
  deriving DecidableEq, Repr

/-- `GasPowerLeft.Gas` -/
def gas (g : UInt64 × UInt64) (i : Fin 2) : UInt64 := if i = 0 then g.1 else g.2

/-- The entry of `GasPowerLeft.Gas` under an index. -/
def gasAt (g : UInt64 × UInt64) (i : ℕ) : Except Fault UInt64 :=
  if h : i < 2 then .ok (gas g ⟨i, h⟩) else .error .indexOutOfRange

/-- `time.Second` -/
def second : ℕ := 1000000000

/-- The cut of a big integer to 64 bits after a multiplication and a division. -/
def mulDiv (a b c : ℕ) : Except Fault UInt64 :=
  if c = 0 then .error .panicked else .ok (UInt64.ofNat (a * b / c))

/-- What `calcValidatorGasPowerPerSec` returns. -/
structure Rate where
  perSec : UInt64
  maxGasPower : UInt64
  startup : UInt64

def calcValidatorGasPowerPerSec (validator : StakerID) (validators : Validators) (config : Config) :
    Except Fault Rate := do
  let stake := validators.get validator
  if stake = 0 then return ⟨0, 0, 0⟩
  let perSec ← mulDiv config.allocPerSec.toNat stake.toNat validators.totalStake.toNat
  let maxGasPower := perSec * (config.maxAllocPeriod / UInt64.ofNat second)
  let startup := perSec * (config.startupAllocPeriod / UInt64.ofNat second)
  let startup := if startup < config.minStartupGas then config.minStartupGas else startup
  return ⟨perSec, maxGasPower, startup⟩

/-- The gas power and the time that `calcGasPower` starts from. -/
def prevGasPower (ctx : ValidationContext) (config : Config) (startup : UInt64)
    (e : EventHeaderData) (selfParent : Option EventHeaderData) :
    Except Fault (UInt64 × Timestamp) := do
  if e.selfParent.isSome then
    match selfParent with
    | none => .error .nilDereference
    | some selfParent => return (← gasAt selfParent.gasPowerLeft config.idx, selfParent.medianTime)
  else
    match ctx.prevEpochLastHeaders e.creator.toNat with
    | some header =>
      let left := (← gasAt header.gasPowerLeft config.idx) + ctx.prevEpochRefunds e.creator.toNat
      return (if left < startup then startup else left, header.medianTime)
    | none => return (startup + ctx.prevEpochRefunds e.creator.toNat, ctx.prevEpochEndTime)

def calcGasPower (ctx : ValidationContext) (config : Config) (e : EventHeaderData)
    (selfParent : Option EventHeaderData) : Except Fault UInt64 := do
  let rate ← calcValidatorGasPowerPerSec e.creator.toNat ctx.validators config
  let (prevGasPowerLeft, prevMedianTime) ← prevGasPower ctx config rate.startup e selfParent
  let prevMedianTime := if e.medianTime < prevMedianTime then e.medianTime else prevMedianTime
  let allocated ← mulDiv (e.medianTime - prevMedianTime).toNat rate.perSec.toNat second
  let gasPower := allocated + prevGasPowerLeft
  return if rate.maxGasPower < gasPower then rate.maxGasPower else gasPower

/-- `Checker.Validate` of `gaspowercheck`. -/
def validate (ctx : ValidationContext) (e : EventHeaderData) (selfParent : Option EventHeaderData) :
    Except Fault (Option Err) := do
  if ctx.epoch ≠ e.epoch then return some .notRelevant
  let short ← calcGasPower ctx (ctx.configs 0) e selfParent
  let long ← calcGasPower ctx (ctx.configs 1) e selfParent
  if gas e.gasPowerLeft 0 + e.gasPowerUsed ≠ short ∨
      gas e.gasPowerLeft 1 + e.gasPowerUsed ≠ long then
    return some .wrongGasPowerLeft
  return none

/-! ### The context of an epoch -/

/-- `lachesis.GasPowerConfig` -/
structure GasPowerConfig where
  initialAllocPerSec : UInt64
  maxAllocPerSec : UInt64
  minAllocPerSec : UInt64
  maxAllocPeriod : Timestamp
  startupAllocPeriod : Timestamp
  minStartupGas : UInt64

def gasPowerBounds (initialAlloc minAlloc maxAlloc customAlloc : UInt64) : UInt64 :=
  let allocPerSec := if customAlloc ≠ 0 then customAlloc else initialAlloc
  let allocPerSec := if maxAlloc < allocPerSec then maxAlloc else allocPerSec
  if allocPerSec < minAlloc then minAlloc else allocPerSec

/-- The config under an index, as `ReadGasPowerContext` makes it. -/
def readConfig (idx : ℕ) (cfg : GasPowerConfig) (customAlloc : UInt64) : Config where
  idx := idx
  allocPerSec :=
    gasPowerBounds cfg.initialAllocPerSec cfg.minAllocPerSec cfg.maxAllocPerSec customAlloc
  maxAllocPeriod := cfg.maxAllocPeriod
  startupAllocPeriod := cfg.startupAllocPeriod
  minStartupGas := cfg.minStartupGas

/-- `ReadGasPowerContext`, from what the store and the app hold of the previous epoch. -/
def readGasPowerContext (epoch : UInt32) (validators : Validators)
    (prevEpochLastHeaders : StakerID → Option EventHeaderData) (prevEpochEndTime : Timestamp)
    (prevEpochRefunds : StakerID → UInt64) (cfgs : Fin 2 → GasPowerConfig)
    (customAllocs : Fin 2 → UInt64) : ValidationContext where
  epoch := epoch
  configs i := readConfig i (cfgs i) (customAllocs i)
  validators := validators
  prevEpochLastHeaders := prevEpochLastHeaders
  prevEpochEndTime := prevEpochEndTime
  prevEpochRefunds := prevEpochRefunds

/-! ### Rates -/

variable {V : Validators} {config : Config}

lemma stakeOf_le_total (V : Validators) (v : StakerID) : V.stakeOf v ≤ V.total := by
  by_cases hv : v ∈ V.members
  · exact Finset.single_le_sum (fun _ _ => Nat.zero_le _) hv
  · have hzero : V.get v = 0 := by
      rw [Validators.get, List.find?_eq_none.mpr fun w hw => ?_]
      · rfl
      · simp only [decide_eq_true_eq]
        rintro rfl
        exact hv (Validators.mem_members.mpr (List.mem_map_of_mem hw))
    rw [Validators.stakeOf, hzero]
    exact Nat.zero_le _

lemma rate_ok (config : Config) (hpos : 0 < V.total) (hfits : V.total < 2 ^ 64) (v : StakerID) :
    ∃ rate, calcValidatorGasPowerPerSec v V config = .ok rate ∧
      rate.perSec.toNat = config.allocPerSec.toNat * V.stakeOf v / V.total := by
  rw [calcValidatorGasPowerPerSec]
  by_cases hstake : V.get v = 0
  · refine ⟨⟨0, 0, 0⟩, by rw [if_pos hstake]; rfl, ?_⟩
    rw [Validators.stakeOf, hstake, UInt64.toNat_zero, Nat.mul_zero, Nat.zero_div]
  · rw [if_neg hstake, mulDiv, Validators.toNat_totalStake hfits, if_neg hpos.ne']
    refine ⟨_, rfl, ?_⟩
    refine UInt64.toNat_ofNat_of_lt' (lt_of_le_of_lt ?_ config.allocPerSec.toNat_lt)
    refine Nat.div_le_of_le_mul ?_
    rw [Nat.mul_comm V.total]
    exact Nat.mul_le_mul_left _ (stakeOf_le_total V v)

/-- The shares add up to at most the whole. -/
lemma sum_rates_le (hpos : 0 < V.total) (a : ℕ) :
    ∑ v ∈ V.members, a * V.stakeOf v / V.total ≤ a := by
  refine Nat.le_of_mul_le_mul_right ?_ hpos
  calc (∑ v ∈ V.members, a * V.stakeOf v / V.total) * V.total
      = ∑ v ∈ V.members, a * V.stakeOf v / V.total * V.total := Finset.sum_mul ..
    _ ≤ ∑ v ∈ V.members, a * V.stakeOf v := Finset.sum_le_sum fun v _ => Nat.div_mul_le_self _ _
    _ = a * V.total := (Finset.mul_sum ..).symm

/-! ### One event -/

variable {ctx : ValidationContext} {i : Fin 2} {e : EventHeaderData}

/-- The gas left and the gas used add up. -/
lemma validate_gas {selfParent : Option EventHeaderData} (h : validate ctx e selfParent = .ok none)
    (i : Fin 2) :
    calcGasPower ctx (ctx.configs i) e selfParent =
      .ok (gas e.gasPowerLeft i + e.gasPowerUsed) := by
  rw [validate] at h
  split_ifs at h
  · cases h
  · obtain ⟨short, hshort, h⟩ := bind_eq_ok_iff.mp h
    obtain ⟨long, hlong, h⟩ := bind_eq_ok_iff.mp h
    split_ifs at h with hne
    · cases h
    · rw [not_or, not_not, not_not] at hne
      fin_cases i
      · exact hshort.trans (congrArg Except.ok hne.1.symm)
      · exact hlong.trans (congrArg Except.ok hne.2.symm)

lemma calcGasPower_le {rate : Rate} {g : UInt64} {selfParent : Option EventHeaderData}
    (hrate : calcValidatorGasPowerPerSec e.creator.toNat ctx.validators config = .ok rate)
    (h : calcGasPower ctx config e selfParent = .ok g) : g.toNat ≤ rate.maxGasPower.toNat := by
  rw [calcGasPower] at h
  obtain ⟨rate', hrate', h⟩ := bind_eq_ok_iff.mp h
  cases hrate.symm.trans hrate'
  obtain ⟨prev, -, h⟩ := bind_eq_ok_iff.mp h
  obtain ⟨allocated, -, h⟩ := bind_eq_ok_iff.mp h
  cases h
  split_ifs with hmax
  · exact le_rfl
  · exact UInt64.le_iff_toNat_le.mp (UInt64.not_lt.mp hmax)

lemma limits_gas {dag : DagConfig} {e : FullEvent} (h : Checker.checkLimits dag e = none)
    (i : Fin 2) : (gas e.gasPowerLeft i).toNat < 2 ^ 62 ∧ e.gasPowerUsed.toNat < 2 ^ 62 := by
  obtain ⟨-, -, -, -, -, -, hused, hleft, hleft'⟩ := Checker.checkLimits_eq_none.mp h
  have hmax : Checker.maxGas.toNat < 2 ^ 62 := by decide
  rw [UInt64.lt_iff_toNat_lt] at hused hleft hleft'
  refine ⟨?_, hused.trans hmax⟩
  rw [gas]
  split_ifs
  · exact hleft.trans hmax
  · exact hleft'.trans hmax

/-- What an event may use is what its self-parent left and what was allocated since. -/
lemma calcGasPower_selfParent {rate : Rate} {g : UInt64} {p : EventHeaderData}
    (hidx : config.idx = i)
    (hrate : calcValidatorGasPowerPerSec e.creator.toNat ctx.validators config = .ok rate)
    (hself : e.selfParent.isSome = true) (h : calcGasPower ctx config e (some p) = .ok g)
    (hfits : (e.medianTime.toNat - p.medianTime.toNat) * rate.perSec.toNat / second +
      (gas p.gasPowerLeft i).toNat < 2 ^ 64) :
    g.toNat ≤ (gas p.gasPowerLeft i).toNat +
      (e.medianTime.toNat - p.medianTime.toNat) * rate.perSec.toNat / second := by
  have hprev : prevGasPower ctx config rate.startup e (some p) =
      .ok (gas p.gasPowerLeft i, p.medianTime) := by
    rw [prevGasPower, if_pos hself, hidx, gasAt, dif_pos i.isLt]
    rfl
  have htime : (e.medianTime - if e.medianTime < p.medianTime then e.medianTime
      else p.medianTime).toNat = e.medianTime.toNat - p.medianTime.toNat := by
    split_ifs with hlt
    · rw [UInt64.sub_self]
      exact (Nat.sub_eq_zero_of_le (UInt64.lt_iff_toNat_lt.mp hlt).le).symm
    · exact UInt64.toNat_sub_of_le _ _ (UInt64.not_lt.mp hlt)
  rw [calcGasPower] at h
  obtain ⟨rate', hrate', h⟩ := bind_eq_ok_iff.mp h
  cases hrate.symm.trans hrate'
  obtain ⟨prev, hprev', h⟩ := bind_eq_ok_iff.mp h
  cases hprev.symm.trans hprev'
  obtain ⟨allocated, hallocated, h⟩ := bind_eq_ok_iff.mp h
  rw [mulDiv, if_neg (by decide), htime] at hallocated
  cases hallocated
  cases h
  generalize (e.medianTime.toNat - p.medianTime.toNat) * rate.perSec.toNat / second = a at hfits ⊢
  have hsum : (UInt64.ofNat a + gas p.gasPowerLeft i).toNat = a + (gas p.gasPowerLeft i).toNat := by
    rw [UInt64.toNat_add, UInt64.toNat_ofNat', Nat.mod_add_mod, Nat.mod_eq_of_lt hfits]
  split_ifs with hmax
  · have := UInt64.lt_iff_toNat_lt.mp hmax
    omega
  · omega

/-! ### A chain of events -/

/-- The increases of the median time along a chain. -/
def medianIncrease : List FullEvent → ℕ
  | e :: e' :: es => (e'.medianTime.toNat - e.medianTime.toNat) + medianIncrease (e' :: es)
  | _ => 0

/-- Each event uses at most what the one before left and what was allocated since. -/
lemma sum_used_le (left : FullEvent → ℕ) {perSec : ℕ} {e₀ : FullEvent} {es : List FullEvent}
    (h : (e₀ :: es).IsChain fun e e' => left e' + e'.gasPowerUsed.toNat ≤
      left e + (e'.medianTime.toNat - e.medianTime.toNat) * perSec / second) :
    (es.map (·.gasPowerUsed.toNat)).sum + left (es.getLastD e₀) ≤
      left e₀ + perSec * medianIncrease (e₀ :: es) / second := by
  induction es generalizing e₀ with
  | nil => simp [medianIncrease]
  | cons e es ih =>
    rw [List.isChain_cons_cons] at h
    have hrest := ih h.2
    have hfirst := h.1
    rw [Nat.mul_comm _ perSec] at hfirst
    have hfloor : perSec * (e.medianTime.toNat - e₀.medianTime.toNat) / second +
        perSec * medianIncrease (e :: es) / second ≤ (perSec * (e.medianTime.toNat -
          e₀.medianTime.toNat) + perSec * medianIncrease (e :: es)) / second :=
      Nat.div_add_div_le_add_div
    rw [← Nat.mul_add] at hfloor
    rw [List.map_cons, List.sum_cons, List.getLastD_cons, medianIncrease]
    omega

/-- The gas power of a creator is limited: along a chain of self-parents no more is used than was
left at its start and allocated since, no event has more than the limit, no sum wraps around, and
the rates of all validators add up to at most the whole. -/
theorem gasPower_limited (hash : EventHeaderData → HashBytes) (dag : DagConfig) (epoch : UInt32)
    (prevEpochLastHeaders : StakerID → Option EventHeaderData) (prevEpochEndTime : Timestamp)
    (prevEpochRefunds : StakerID → UInt64) (cfgs : Fin 2 → GasPowerConfig)
    (customAllocs : Fin 2 → UInt64) (hpos : 1 ≤ V.total) (htotal : V.total ≤ 2 ^ 63)
    {creator : UInt32} {e₀ : FullEvent} {es : List FullEvent}
    (hlimits : ∀ e ∈ e₀ :: es, e.creator = creator ∧ Checker.checkLimits dag e = none) (i : Fin 2) :
    let ctx := readGasPowerContext epoch V prevEpochLastHeaders prevEpochEndTime prevEpochRefunds
      cfgs customAllocs
    (∃ selfParent, validate ctx e₀.toEventHeaderData selfParent = .ok none) →
    ((e₀ :: es).IsChain fun e e' => e'.selfParent = some (hash e.toEventHeaderData) ∧
      validate ctx e'.toEventHeaderData (some e.toEventHeaderData) = .ok none) →
    ((e₀ :: es).IsChain fun e e' => (ctx.configs i).allocPerSec.toNat *
      (e'.medianTime.toNat - e.medianTime.toNat) / second < 2 ^ 63) →
    ∃ rates : StakerID → Rate,
      (∀ v, calcValidatorGasPowerPerSec v V (ctx.configs i) = .ok (rates v)) ∧
      ∑ v ∈ V.members, (rates v).perSec.toNat ≤ (ctx.configs i).allocPerSec.toNat ∧
      (es.map (·.gasPowerUsed.toNat)).sum + (gas (es.getLastD e₀).gasPowerLeft i).toNat ≤
        (gas e₀.gasPowerLeft i).toNat +
          (rates creator.toNat).perSec.toNat * medianIncrease (e₀ :: es) / second ∧
      (∀ e ∈ e₀ :: es, (gas e.gasPowerLeft i).toNat + e.gasPowerUsed.toNat < 2 ^ 64 ∧
        (gas e.gasPowerLeft i).toNat + e.gasPowerUsed.toNat ≤
          (rates creator.toNat).maxGasPower.toNat) ∧
      (e₀ :: es).IsChain fun e e' => (e'.medianTime.toNat - e.medianTime.toNat) *
        (rates creator.toNat).perSec.toNat / second + (gas e.gasPowerLeft i).toNat < 2 ^ 64 := by
  intro ctx hfirst hchain hfits
  choose rates hrates hperSec using rate_ok (ctx.configs i) hpos (by omega)
  have hle : (rates creator.toNat).perSec.toNat ≤ (ctx.configs i).allocPerSec.toNat := by
    rw [hperSec]
    refine Nat.div_le_of_le_mul ?_
    rw [Nat.mul_comm V.total]
    exact Nat.mul_le_mul_left _ (stakeOf_le_total V _)
  have hsmall : ∀ e ∈ e₀ :: es, (gas e.gasPowerLeft i).toNat < 2 ^ 62 ∧
      e.gasPowerUsed.toNat < 2 ^ 62 := fun e he => limits_gas (hlimits e he).2 i
  have hrate : ∀ e ∈ e₀ :: es, calcValidatorGasPowerPerSec e.creator.toNat ctx.validators
      (ctx.configs i) = .ok (rates creator.toNat) := fun e he => (hlimits e he).1 ▸ hrates _
  have hsum : ∀ e ∈ e₀ :: es,
      (gas e.gasPowerLeft i + e.gasPowerUsed).toNat =
        (gas e.gasPowerLeft i).toNat + e.gasPowerUsed.toNat := by
    intro e he
    obtain ⟨hleft, hused⟩ := hsmall e he
    rw [UInt64.toNat_add, Nat.mod_eq_of_lt (by omega)]
  rw [List.isChain_iff_forall_rel_of_append_cons_cons] at hchain hfits
  have hwrap : ∀ ⦃e e' l₁ l₂⦄, e₀ :: es = l₁ ++ e :: e' :: l₂ →
      (e'.medianTime.toNat - e.medianTime.toNat) * (rates creator.toNat).perSec.toNat / second +
        (gas e.gasPowerLeft i).toNat < 2 ^ 64 := by
    intro e e' l₁ l₂ hl
    have hleft := (hsmall e (by simp [hl])).1
    have hfits' := hfits hl
    rw [Nat.mul_comm] at hfits'
    have hmono := Nat.div_le_div_right (c := second)
      (Nat.mul_le_mul_left (e'.medianTime.toNat - e.medianTime.toNat) hle)
    omega
  refine ⟨rates, hrates, ?_, ?_, fun e he => ?_, ?_⟩
  · simp only [hperSec]
    exact sum_rates_le hpos _
  · refine sum_used_le (fun e => (gas e.gasPowerLeft i).toNat) ?_
    rw [List.isChain_iff_forall_rel_of_append_cons_cons]
    intro e e' l₁ l₂ hl
    have he' : e' ∈ e₀ :: es := by simp [hl]
    rw [← hsum e' he']
    obtain ⟨hself, hvalid⟩ := hchain hl
    exact calcGasPower_selfParent rfl (hrate e' he') (by rw [hself]; rfl) (validate_gas hvalid i)
      (hwrap hl)
  · obtain ⟨hleft, hused⟩ := hsmall e he
    refine ⟨by omega, ?_⟩
    rw [← hsum e he]
    have hvalid : ∃ selfParent, validate ctx e.toEventHeaderData selfParent = .ok none := by
      rcases List.mem_cons.mp he with rfl | htail
      · exact hfirst
      · obtain ⟨as, bs, rfl⟩ := List.append_of_mem htail
        rcases List.eq_nil_or_concat as with rfl | ⟨as, p, rfl⟩
        · exact ⟨_, (hchain (List.nil_append _).symm).2⟩
        · exact ⟨_, (hchain (show _ = (e₀ :: as) ++ p :: e :: bs by simp)).2⟩
    obtain ⟨selfParent, hvalid⟩ := hvalid
    exact calcGasPower_le (hrate e he) (validate_gas hvalid i)
  · rw [List.isChain_iff_forall_rel_of_append_cons_cons]
    exact hwrap

/-- One validator and one million gas a second for it. -/
def oneValidator : Validators :=
  ⟨[⟨(1 : ℕ), 1⟩], by decide, by decide, by decide⟩

@[inherit_doc oneValidator]
def million : GasPowerConfig := ⟨1000000, 1000000, 1000000, 3600000000000, 100000000000, 0⟩

/-- Its first event, and the next one a second later. -/
def firstEvent : FullEvent :=
  { Checker.firstEvent [] with gasPowerLeft := (99972000, 99972000) }

@[inherit_doc firstEvent]
def nextEvent : FullEvent :=
  { Checker.firstEvent [] with
    seq := 2
    parents := [.zero]
    medianTime := 1000000001
    gasPowerLeft := (100944000, 100944000) }

theorem gasPower_limited_next :
    ∃ rates : StakerID → Rate,
      (∀ v, calcValidatorGasPowerPerSec v oneValidator (readConfig 0 million 0) =
        .ok (rates v)) ∧
      nextEvent.gasPowerUsed.toNat + (gas nextEvent.gasPowerLeft 0).toNat ≤
        (gas firstEvent.gasPowerLeft 0).toNat +
          (rates 1).perSec.toNat * medianIncrease [firstEvent, nextEvent] / second := by
  obtain ⟨rates, hrates, -, hused, -⟩ := gasPower_limited (V := oneValidator) (fun _ => .zero)
    ⟨10, 3⟩ 1 (fun _ => none) 1 (fun _ => 0) (fun _ => million) (fun _ => 0) (by decide +kernel)
    (by decide +kernel)
    (show ∀ e ∈ [firstEvent, nextEvent], e.creator = 1 ∧ Checker.checkLimits ⟨10, 3⟩ e = none by
      decide +kernel)
    0 ⟨none, by decide +kernel⟩ (.cons_cons ⟨rfl, by decide +kernel⟩ (.singleton _))
    (.cons_cons (by decide +kernel) (.singleton _))
  exact ⟨rates, hrates, by simpa using hused⟩

end Gaspowercheck

end Lachesis
