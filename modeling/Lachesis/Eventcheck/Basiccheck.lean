import Lachesis.Eventcheck
import Lachesis.Inter.EventSerializer

/-!
# Basic checks of a whole event

`basiccheck` looks at an event alone: its header as it is sent, the signature and the transactions.
The consensus fields are those of `Lachesis.Eventcheck`; here are the others, above all the gas that
an event declares. Gas is `uint64` and wraps around.
-/

namespace Lachesis

/-- The number that the bytes write, most significant first. -/
def HashBytes.toNumber (h : HashBytes) : ℕ := h.val.foldl (fun n b => n * 256 + b.toNat) 0

/-- `types.Transaction`, as far as it is checked. The receiver is missing for a new contract. -/
structure Transaction where
  value : ℤ
  gasPrice : ℤ
  gas : UInt64
  data : List UInt8
  receiver : Option (BitVec 160)
  deriving DecidableEq, Repr

/-- `inter.Event`: the header with its signature and transactions. -/
structure FullEvent extends EventHeaderData where
  sig : List UInt8
  transactions : List Transaction
  deriving DecidableEq

/-- The consensus fields of a header; the digest is that of its bytes. -/
def EventHeaderData.consensus (e : EventHeaderData) (digest : BitVec 192) : Event where
  epoch := e.epoch.toNat
  seq := e.seq.toNat
  frame := e.frame.toNat
  isRoot := e.isRoot
  creator := e.creator.toNat
  prevEpochHash := e.prevEpochHash.toNumber
  parents := e.parents.map HashBytes.toNumber
  lamport := e.lamport.toNat
  claimedTime := e.claimedTime
  medianTime := e.medianTime
  digest := digest

def EventHeaderData.selfParent (e : EventHeaderData) : Option HashBytes :=
  if e.seq ≤ 1 then none else e.parents.head?

/-- `lachesis.DagConfig` -/
structure DagConfig where
  maxParents : ℕ
  maxFreeParents : ℕ

namespace Params

def eventGas : UInt64 := 28000

def maxGasPowerUsed : UInt64 := 10000000 + eventGas

def maxExtraData : ℕ := 128

def parentGas : UInt64 := 2400

def extraDataGas : UInt64 := 150

def minGasPrice : ℤ := 1000000000

def txGas : UInt64 := 21000

def txGasContractCreation : UInt64 := 53000

/-- `TxDataNonZeroGasEIP2028` -/
def txDataNonZeroGas : UInt64 := 16

def txDataZeroGas : UInt64 := 4

end Params

open Params

/-- `evmcore.IntrinsicGas`, nothing where it runs out of gas. -/
def intrinsicGas (data : List UInt8) (contractCreation homestead : Bool) : Option UInt64 :=
  let gas := if contractCreation && homestead then txGasContractCreation else txGas
  if data.length = 0 then some gas
  else
    let nz := UInt64.ofNat (data.countP (· ≠ 0))
    if (0xffffffffffffffff - gas) / txDataNonZeroGas < nz then none
    else
      let gas := gas + nz * txDataNonZeroGas
      let z := UInt64.ofNat data.length - nz
      if (0xffffffffffffffff - gas) / txDataZeroGas < z then none
      else some (gas + z * txDataZeroGas)

namespace Checker

/-- The errors of `basiccheck`, and `vm.ErrOutOfGas`. -/
inductive Err
  | sigMalformed
  | version
  | extraTooLarge
  | noParents
  | tooManyParents
  | tooBigGasUsed
  | wrongGasUsed
  | intrinsicGas
  | underpriced
  | notInited
  | zeroTime
  | negativeValue
  | hugeValue
  | outOfGas
  deriving DecidableEq, Repr

def validateTx (tx : Transaction) : Option Err :=
  if tx.value < 0 ∨ tx.gasPrice < 0 then some .negativeValue
  else
    match intrinsicGas tx.data tx.receiver.isNone true with
    | none => some .outOfGas
    | some intrGas =>
      if tx.gas < intrGas then some .intrinsicGas
      else if tx.gasPrice < minGasPrice then some .underpriced
      else none

def checkTxs (e : FullEvent) : Option Err := e.transactions.findSome? validateTx

def calcGasPowerUsed (config : DagConfig) (e : FullEvent) : UInt64 :=
  let txsGas := e.transactions.foldl (fun txsGas tx => txsGas + tx.gas) 0
  let parentsGas :=
    if config.maxFreeParents < e.parents.length then
      UInt64.ofNat (e.parents.length - config.maxFreeParents) * parentGas
    else 0
  let extraGas := UInt64.ofNat e.extra.length * extraDataGas
  txsGas + parentsGas + extraGas + eventGas

def checkGas (config : DagConfig) (e : FullEvent) : Option Err :=
  if maxGasPowerUsed < e.gasPowerUsed then some .tooBigGasUsed
  else if e.gasPowerUsed ≠ calcGasPowerUsed config e then some .wrongGasUsed
  else none

/-- `math.MaxInt32 / 2` -/
def maxIndex : UInt32 := 1073741823

/-- `math.MaxInt64 / 2` -/
def maxGas : UInt64 := 4611686018427387903

/-- `GasPowerLeft.Max` -/
def gasPowerMax (g : UInt64 × UInt64) : UInt64 := if g.1 < g.2 then g.2 else g.1

def checkLimits (config : DagConfig) (e : FullEvent) : Option Err :=
  if maxExtraData < e.extra.length then some .extraTooLarge
  else if config.maxParents < e.parents.length then some .tooManyParents
  else if maxIndex ≤ e.seq ∨ maxIndex ≤ e.epoch ∨ maxIndex ≤ e.frame ∨ maxIndex ≤ e.lamport ∨
      maxGas ≤ e.gasPowerUsed ∨ maxGas ≤ gasPowerMax e.gasPowerLeft then
    some .hugeValue
  else none

def checkInited (e : FullEvent) : Option Err :=
  if e.seq ≤ 0 ∨ e.epoch ≤ 0 ∨ e.frame ≤ 0 ∨ e.lamport ≤ 0 then some .notInited
  else if e.claimedTime ≤ 0 then some .zeroTime
  else if 1 < e.seq ∧ e.parents.length = 0 then some .noParents
  else if e.sig.length ≠ 65 then some .sigMalformed
  else none

def validate (config : DagConfig) (e : FullEvent) : Option Err :=
  if e.version ≠ 0 then some .version
  else checkLimits config e <|> checkInited e <|> checkGas config e <|> checkTxs e

/-! ### What passed -/

variable {config : DagConfig} {e : FullEvent}

lemma validate_eq_none : validate config e = none ↔ e.version = 0 ∧ checkLimits config e = none ∧
    checkInited e = none ∧ checkGas config e = none ∧ checkTxs e = none := by
  unfold validate
  split_ifs with hversion
  · simp [hversion]
  · rw [not_not] at hversion
    simp only [hversion, true_and, Option.orElse_eq_orElse, Option.orElse_eq_or,
      Option.or_eq_none_iff]

lemma gasPowerMax_lt {g : UInt64 × UInt64} {b : UInt64} :
    gasPowerMax g < b ↔ g.1 < b ∧ g.2 < b := by
  simp only [gasPowerMax, apply_ite (· < b), UInt64.lt_iff_toNat_lt]
  split_ifs <;> omega

lemma checkLimits_eq_none : checkLimits config e = none ↔ e.extra.length ≤ maxExtraData ∧
    e.parents.length ≤ config.maxParents ∧ e.seq < maxIndex ∧ e.epoch < maxIndex ∧
    e.frame < maxIndex ∧ e.lamport < maxIndex ∧ e.gasPowerUsed < maxGas ∧
    e.gasPowerLeft.1 < maxGas ∧ e.gasPowerLeft.2 < maxGas := by
  rw [checkLimits, ← gasPowerMax_lt]
  split_ifs with h₁ h₂ h₃
  · exact iff_of_false nofun fun h => absurd h.1 (not_le.mpr h₁)
  · exact iff_of_false nofun fun h => absurd h.2.1 (not_le.mpr h₂)
  · refine iff_of_false nofun fun h => ?_
    simp only [← UInt32.not_le, ← UInt64.not_le] at h
    tauto
  · simp only [not_or, UInt32.not_le, UInt64.not_le] at h₃
    exact iff_of_true rfl ⟨not_lt.mp h₁, not_lt.mp h₂, h₃⟩

lemma checkInited_eq_none : checkInited e = none ↔ 0 < e.seq ∧ 0 < e.epoch ∧ 0 < e.frame ∧
    0 < e.lamport ∧ 0 < e.claimedTime ∧ (1 < e.seq → e.parents ≠ []) ∧ e.sig.length = 65 := by
  rw [checkInited]
  split_ifs with h₁ h₂ h₃ h₄
  · refine iff_of_false nofun fun h => ?_
    simp only [← UInt32.not_le] at h
    tauto
  · exact iff_of_false nofun fun h => absurd h.2.2.2.2.1 (UInt64.not_lt.mpr h₂)
  · exact iff_of_false nofun fun h =>
      h.2.2.2.2.2.1 h₃.1 (List.length_eq_zero_iff.mp h₃.2)
  · exact iff_of_false nofun fun h => h₄ h.2.2.2.2.2.2
  · simp only [not_or, UInt32.not_le] at h₁
    exact iff_of_true rfl ⟨h₁.1, h₁.2.1, h₁.2.2.1, h₁.2.2.2, UInt64.not_le.mp h₂,
      fun hseq hnil => h₃ ⟨hseq, by rw [hnil, List.length_nil]⟩, not_not.mp h₄⟩

/-- The consensus fields of an accepted event pass the checks of `Lachesis.Eventcheck`. -/
theorem validate_consensus (h : validate config e = none) (digest : BitVec 192) :
    Basiccheck.validate config.maxParents (e.consensus digest) = none := by
  obtain ⟨-, hlimits, hinited, -⟩ := validate_eq_none.mp h
  obtain ⟨-, hparents, hseq, hepoch, hframe, hlamport, -⟩ := checkLimits_eq_none.mp hlimits
  obtain ⟨hseq', hepoch', hframe', hlamport', htime, hnil, -⟩ := checkInited_eq_none.mp hinited
  rw [Basiccheck.validate, Option.or_eq_none_iff, Basiccheck.checkLimits_eq_none,
    Basiccheck.checkInited_eq_none]
  refine ⟨⟨by simpa [EventHeaderData.consensus] using hparents, ?_⟩, ?_⟩
  · exact ⟨hseq, hepoch, hframe, hlamport⟩
  · exact ⟨hseq', hepoch', hframe', hlamport', htime, fun hone => by
      simpa [EventHeaderData.consensus] using hnil hone⟩

/-! ### Gas -/

/-- The exact gas of an event. -/
def exactGas (config : DagConfig) (e : FullEvent) : ℕ :=
  (e.transactions.map (·.gas.toNat)).sum +
    (e.parents.length - config.maxFreeParents) * parentGas.toNat +
    e.extra.length * extraDataGas.toNat + eventGas.toNat

lemma foldl_gas (txs : List Transaction) (g : UInt64) :
    (txs.foldl (fun txsGas tx => txsGas + tx.gas) g).toNat =
      (g.toNat + (txs.map (·.gas.toNat)).sum) % 2 ^ 64 := by
  induction txs generalizing g with
  | nil => simp [Nat.mod_eq_of_lt g.toNat_lt]
  | cons tx txs ih =>
    rw [List.foldl_cons, ih, UInt64.toNat_add, List.map_cons, List.sum_cons, Nat.mod_add_mod,
      Nat.add_assoc]

/-- The sum is exact up to multiples of `2 ^ 64`. -/
lemma calcGasPowerUsed_toNat : (calcGasPowerUsed config e).toNat = exactGas config e % 2 ^ 64 := by
  have hparents : (if config.maxFreeParents < e.parents.length then
      UInt64.ofNat (e.parents.length - config.maxFreeParents) * parentGas else 0).toNat =
      (e.parents.length - config.maxFreeParents) * parentGas.toNat % 2 ^ 64 := by
    split_ifs with h
    · rw [UInt64.toNat_mul, UInt64.toNat_ofNat', Nat.mod_mul_mod]
    · rw [Nat.sub_eq_zero_of_le (not_lt.mp h), Nat.zero_mul]
      rfl
  rw [calcGasPowerUsed, UInt64.toNat_add, UInt64.toNat_add, UInt64.toNat_add, foldl_gas, hparents,
    UInt64.toNat_mul, UInt64.toNat_ofNat', Nat.mod_mul_mod, exactGas]
  simp only [UInt64.toNat_zero, Nat.zero_add]
  generalize (e.transactions.map (·.gas.toNat)).sum = a
  generalize (e.parents.length - config.maxFreeParents) * parentGas.toNat = b
  generalize e.extra.length * extraDataGas.toNat = c
  omega

/-- The declared gas of an accepted event is its exact gas as long as this fits into 64 bits. -/
theorem gasPowerUsed_exact_iff (h : validate config e = none) :
    exactGas config e = e.gasPowerUsed.toNat ∧ exactGas config e ≤ maxGasPowerUsed.toNat ↔
      exactGas config e < 2 ^ 64 := by
  have hgas := (validate_eq_none.mp h).2.2.2.1
  rw [checkGas] at hgas
  split_ifs at hgas with hmax heq
  have hle := UInt64.le_iff_toNat_le.mp (UInt64.not_lt.mp hmax)
  have heq' : e.gasPowerUsed.toNat = exactGas config e % 2 ^ 64 := by
    rw [← calcGasPowerUsed_toNat, ← not_not.mp heq]
  have hlt := e.gasPowerUsed.toNat_lt
  constructor
  · rintro ⟨hexact, -⟩
    omega
  · intro hfits
    rw [Nat.mod_eq_of_lt hfits] at heq'
    exact ⟨heq'.symm, heq' ▸ hle⟩

/-- A first event with the given transactions, which declares the gas of none. -/
def firstEvent (transactions : List Transaction) : FullEvent where
  version := 0
  epoch := 1
  seq := 1
  frame := 1
  isRoot := true
  creator := 1
  prevEpochHash := .zero
  parents := []
  gasPowerLeft := (0, 0)
  gasPowerUsed := eventGas
  lamport := 1
  claimedTime := 1
  medianTime := 1
  txHash := .zero
  extra := []
  sig := List.replicate 65 0
  transactions := transactions

/-- One that declares the gas of its two transactions. -/
def paidFirstEvent : FullEvent :=
  { firstEvent (List.replicate 2 ⟨0, 1000000000, 21000, [], some 0⟩) with gasPowerUsed := 70000 }

theorem gasPowerUsed_exact_iff_paid :
    exactGas ⟨10, 3⟩ paidFirstEvent = paidFirstEvent.gasPowerUsed.toNat ∧
      exactGas ⟨10, 3⟩ paidFirstEvent ≤ maxGasPowerUsed.toNat :=
  (gasPowerUsed_exact_iff (show validate ⟨10, 3⟩ paidFirstEvent = none by decide +kernel)).mpr
    (by decide +kernel)

/-- Two transactions with a gas limit of `2 ^ 63` each are taken for free. -/
theorem validate_hugeGas :
    validate ⟨10, 3⟩ (firstEvent (List.replicate 2 ⟨0, 1000000000, 2 ^ 63, [], some 0⟩)) = none ∧
      exactGas ⟨10, 3⟩ (firstEvent (List.replicate 2 ⟨0, 1000000000, 2 ^ 63, [], some 0⟩)) =
        2 ^ 64 + 28000 := by
  decide +kernel

end Checker

end Lachesis
