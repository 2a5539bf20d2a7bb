import Lachesis.App.SfcIndex

/-!
# Fees for the proof of importance

The application adds up the fees that each address pays in a period of time. The sum of an address
is read for the period of its last transaction and begins anew when a transaction falls into another
period. The fees of delegators are added to their stakers in proportion to the stakes, and the
scores of the stakers are set from all these sums when a block begins a new period.

As long as the times of the blocks do not decrease, no fee is lost: what is stored for an address
and a period is the sum of the fees of all its transactions in the blocks of the period.
-/

namespace Lachesis.Poi

open Std Lachesis.Core Lachesis.Sfc

/-- The ways the functions of `app/poi.go` end without returning. -/
inductive Fault
  /-- `Failed to get sender from transaction` -/
  | noSender
  | divideByZero
  | indexOutOfRange
  | nilDereference
  deriving DecidableEq, Repr

def poiPeriod (duration : UInt64) (t : Timestamp) : Except Fault UInt64 :=
  if duration = 0 then .error .divideByZero else .ok (t / duration)

/-- The tables of `app.Store` behind the proof of importance. -/
structure Store where
  sfc : Sfc.Store
  addressFee : ExtTreeMap ℕ ℕ
  addressLastTxTime : ExtTreeMap Sfc.Address Timestamp
  totalPoiFee : ExtTreeMap ℕ ℕ

/-- The number that the bytes of an address and of a period write. -/
def feeKey (address : Sfc.Address) (period : UInt64) : ℕ := address * 2 ^ 64 + period.toNat

namespace Store

def getAddressFee (s : Store) (address : Sfc.Address) (period : UInt64) : ℕ :=
  s.addressFee[feeKey address period]?.getD 0

def setAddressFee (s : Store) (address : Sfc.Address) (period : UInt64) (val : ℕ) : Store :=
  { s with addressFee := s.addressFee.insert (feeKey address period) val }

def getAddressLastTxTime (s : Store) (address : Sfc.Address) : Timestamp :=
  s.addressLastTxTime[address]?.getD 0

def setAddressLastTxTime (s : Store) (address : Sfc.Address) (t : Timestamp) : Store :=
  { s with addressLastTxTime := s.addressLastTxTime.insert address t }

def getPoiFee (s : Store) (period : UInt64) : ℕ := s.totalPoiFee[period.toNat]?.getD 0

def addPoiFee (s : Store) (period : UInt64) (diff : ℕ) : Store :=
  if diff = 0 then s
  else { s with totalPoiFee := s.totalPoiFee.insert period.toNat (s.getPoiFee period + diff) }

def getWeightedDelegatorsFee (s : Store) (id : StakerID) : ℤ :=
  (s.sfc.stakerRecords .weightedDelegatorsFee)[id]?.getD 0

/-- `Store.SetWeightedDelegatorsFee` and `Store.SetStakerPOI`. The bytes of a number are without
its sign. -/
def setStakerRecord (s : Store) (table : StakerTable) (id : StakerID) (val : ℤ) : Store :=
  let records := (s.sfc.stakerRecords table).insert id |val|
  { s with sfc.stakerRecords := Function.update s.sfc.stakerRecords table records }

def delAllWeightedDelegatorsFee (s : Store) : Store :=
  { s with sfc.stakerRecords := Function.update s.sfc.stakerRecords .weightedDelegatorsFee ∅ }

end Store

/-- `SfcStaker.CalcTotalStake` -/
def calcTotalStake (staker : Staker) : ℤ := staker.stakeAmount + staker.delegatedMe

/-- A transaction; there may be no sender to its signature. -/
structure Tx where
  sender : Option Sfc.Address
  gasPrice : ℕ

/-- A block as it was executed, with the gas that is used in each receipt. -/
structure PoiBlock where
  index : ℕ
  time : Timestamp
  totalFee : ℕ
  txs : List Tx
  receipts : List UInt64

/-- The part of `updateUsersPOI` that is about a delegator. -/
def addDelegatorFee (s : Store) (sender : Sfc.Address) (txFee : ℕ) : Except Fault Store :=
  match s.sfc.delegators[sender]? with
  | none => .ok s
  | some delegator =>
    match s.sfc.stakers[delegator.toStakerID]? with
    | none => .ok s
    | some staker =>
      if calcTotalStake staker = 0 then .error .divideByZero
      else .ok (s.setStakerRecord .weightedDelegatorsFee delegator.toStakerID
        (txFee * delegator.amount / calcTotalStake staker +
          s.getWeightedDelegatorsFee delegator.toStakerID))

/-- A round of the loop of `updateUsersPOI`, in a block of the period. -/
def updateUser (duration : UInt64) (time : Timestamp) (period : UInt64) (tx : Tx) (gasUsed : UInt64)
    (s : Store) : Except Fault Store := do
  let txFee := gasUsed.toNat * tx.gasPrice
  match tx.sender with
  | none => .error .noSender
  | some sender =>
    let prevUserPoiPeriod ← poiPeriod duration (s.getAddressLastTxTime sender)
    let senderTotalFee := s.getAddressFee sender prevUserPoiPeriod
    let s ← addDelegatorFee s sender txFee
    let senderTotalFee := if prevUserPoiPeriod ≠ period then 0 else senderTotalFee
    return (s.setAddressLastTxTime sender time).setAddressFee sender period (senderTotalFee + txFee)

/-- The loop of `updateUsersPOI`. -/
def updateUsers (duration : UInt64) (time : Timestamp) (period : UInt64) :
    List Tx → List UInt64 → Store → Except Fault Store
  | [], _, s => .ok s
  | _ :: _, [], _ => .error .indexOutOfRange
  | tx :: txs, gasUsed :: receipts, s => do
    let s ← updateUser duration time period tx gasUsed s
    updateUsers duration time period txs receipts s

/-- `App.updateUsersPOI` -/
def updateUsersPOI (duration : UInt64) (b : PoiBlock) (s : Store) : Except Fault Store := do
  let period ← poiPeriod duration b.time
  updateUsers duration b.time period b.txs b.receipts (s.addPoiFee period b.totalFee)

/-- `App.updateStakerPOI`. A sum of zero is written as any other. -/
def updateStakerPOI (period : UInt64) (s : Store) (id : StakerID) (address : Sfc.Address) :
    Except Fault Store :=
  let vFee := s.getAddressFee address period
  let weightedDFee := s.getWeightedDelegatorsFee id
  if vFee = 0 ∧ weightedDFee = 0 then .ok (s.setStakerRecord .poi id 0)
  else match s.sfc.stakers[id]? with
    | none => .error .nilDereference
    | some staker =>
      if calcTotalStake staker = 0 then .error .divideByZero
      else .ok (s.setStakerRecord .poi id
        (weightedDFee + vFee * staker.stakeAmount / calcTotalStake staker))

/-- `App.updateStakersPOI`, with the times of the stored blocks. -/
def updateStakersPOI (duration : UInt64) (blockTime : ℕ → Option Timestamp) (b : PoiBlock)
    (s : Store) : Except Fault Store := do
  let period ← poiPeriod duration b.time
  match blockTime (b.index - 1) with
  | none => .error .nilDereference
  | some prevTime =>
    let prevBlockPoiPeriod ← poiPeriod duration prevTime
    if period ≠ prevBlockPoiPeriod then
      let active := s.sfc.stakers.toList.filter fun it =>
        it.2.status = 0 && it.2.deactivatedEpoch = 0
      let s ← active.foldlM
        (fun s it => updateStakerPOI prevBlockPoiPeriod s it.1 it.2.address) s
      return s.delAllWeightedDelegatorsFee
    else return s

/-! ### What was paid -/

/-- The fees of an address in a block. -/
def PoiBlock.spentBy (address : Sfc.Address) : List Tx → List UInt64 → ℕ
  | tx :: txs, gasUsed :: receipts =>
    (if tx.sender = some address then gasUsed.toNat * tx.gasPrice else 0) +
      spentBy address txs receipts
  | _, _ => 0

/-- The sum of `f` over the blocks of a period. -/
def inPeriod (duration period : UInt64) (f : PoiBlock → ℕ) (blocks : List PoiBlock) : ℕ :=
  ((blocks.filter (·.time / duration = period)).map f).sum

/-- What the tables say when `paid` was paid by each address and `total` by all in each period, in
blocks up to the time `now`. -/
structure Accounts (duration : UInt64) (now : Timestamp) (paid : Sfc.Address → UInt64 → ℕ)
    (total : UInt64 → ℕ) (s : Store) : Prop where
  fee : ∀ address period, s.getAddressFee address period = paid address period
  total : ∀ period, s.getPoiFee period = total period
  last_le : ∀ address, s.getAddressLastTxTime address ≤ now
  recent : ∀ address period, paid address period ≠ 0 →
    period ≤ s.getAddressLastTxTime address / duration

lemma feeKey_inj {a a' : Sfc.Address} {p p' : UInt64} :
    feeKey a p = feeKey a' p' ↔ a = a' ∧ p = p' := by
  have hdiv : ∀ (a : ℕ) (p : UInt64), (a * 2 ^ 64 + p.toNat) / 2 ^ 64 = a := by
    intro a p
    have hp := p.toNat_lt
    omega
  constructor
  · intro h
    obtain rfl : a = a' := by rw [← hdiv a p, ← hdiv a' p', ← feeKey, h, feeKey]
    exact ⟨rfl, UInt64.toNat_inj.mp (Nat.add_left_cancel h)⟩
  · rintro ⟨rfl, rfl⟩
    rfl

lemma poiPeriod_eq {duration period : UInt64} {t : Timestamp}
    (h : poiPeriod duration t = .ok period) : t / duration = period := by
  unfold poiPeriod at h
  split_ifs at h
  exact Except.ok.inj h

lemma div_le_div {a b : UInt64} (h : a ≤ b) (d : UInt64) : a / d ≤ b / d := by
  rw [UInt64.le_iff_toNat_le, UInt64.toNat_div, UInt64.toNat_div]
  exact Nat.div_le_div_right (UInt64.le_iff_toNat_le.mp h)

section

variable {duration : UInt64} {now time : Timestamp} {paid : Sfc.Address → UInt64 → ℕ}
variable {total : UInt64 → ℕ} {s s' : Store}

lemma getAddressFee_setAddressFee (s : Store) (a a' : Sfc.Address) (p p' : UInt64) (val : ℕ) :
    (s.setAddressFee a p val).getAddressFee a' p' =
      if a = a' ∧ p = p' then val else s.getAddressFee a' p' := by
  simp only [Store.setAddressFee, Store.getAddressFee, ExtTreeMap.getElem?_insert,
    LawfulEqCmp.compare_eq_iff_eq, feeKey_inj]
  split_ifs <;> rfl

lemma getAddressLastTxTime_setAddressLastTxTime (s : Store) (a a' : Sfc.Address) (t : Timestamp) :
    (s.setAddressLastTxTime a t).getAddressLastTxTime a' =
      if a = a' then t else s.getAddressLastTxTime a' := by
  simp only [Store.setAddressLastTxTime, Store.getAddressLastTxTime, ExtTreeMap.getElem?_insert,
    LawfulEqCmp.compare_eq_iff_eq]
  split_ifs <;> rfl

lemma getAddressLastTxTime_setAddressFee (s : Store) (a a' : Sfc.Address) (p : UInt64) (val : ℕ) :
    (s.setAddressFee a p val).getAddressLastTxTime a' = s.getAddressLastTxTime a' := rfl

lemma Accounts.mono (h : Accounts duration now paid total s) (hle : now ≤ time) :
    Accounts duration time paid total s :=
  ⟨h.fee, h.total, fun a => UInt64.le_trans (h.last_le a) hle, h.recent⟩

lemma Accounts.withSfc (h : Accounts duration now paid total s) (sfc : Sfc.Store) :
    Accounts duration now paid total { s with sfc } :=
  ⟨h.fee, h.total, h.last_le, h.recent⟩

lemma addDelegatorFee_eq {sender : Sfc.Address} {txFee : ℕ}
    (h : addDelegatorFee s sender txFee = .ok s') : ∃ sfc, s' = { s with sfc } := by
  unfold addDelegatorFee at h
  split at h
  · cases h
    exact ⟨s.sfc, rfl⟩
  · split at h
    · cases h
      exact ⟨s.sfc, rfl⟩
    · split_ifs at h
      cases h
      exact ⟨_, rfl⟩

/-- A transaction is paid for by its sender, in the period of the block. -/
lemma Accounts.updateUser (h : Accounts duration time paid total s) {tx : Tx} {gasUsed : UInt64}
    (hrun : updateUser duration time (time / duration) tx gasUsed s = .ok s') :
    Accounts duration time (fun a p => paid a p +
      if tx.sender = some a ∧ p = time / duration then gasUsed.toNat * tx.gasPrice else 0)
      total s' := by
  unfold Poi.updateUser at hrun
  cases hsender : tx.sender with
  | none => simp [hsender] at hrun
  | some sender =>
    simp only [hsender, bind, bind_eq_ok_iff] at hrun
    obtain ⟨prev, hprev, s₁, hdelegator, hrun⟩ := hrun
    obtain ⟨sfc, rfl⟩ := addDelegatorFee_eq hdelegator
    obtain rfl := poiPeriod_eq hprev
    cases hrun
    have hle := div_le_div (h.last_le sender) duration
    -- a sum that was begun in this period is the one that is read
    have htotal : (if s.getAddressLastTxTime sender / duration ≠ time / duration then 0
        else s.getAddressFee sender (s.getAddressLastTxTime sender / duration)) =
          paid sender (time / duration) := by
      split_ifs with hperiod
      · by_contra hpaid
        exact hperiod (UInt64.le_antisymm hle (h.recent _ _ (Ne.symm hpaid)))
      · rw [not_not.mp hperiod, h.fee]
    rw [htotal]
    apply Accounts.mk
    · intro a p
      rw [getAddressFee_setAddressFee]
      split_ifs with hkey hpaid hpaid
      · rw [← hkey.1, ← hkey.2]
      · exact absurd ⟨congrArg some hkey.1, hkey.2.symm⟩ hpaid
      · exact absurd ⟨Option.some.inj hpaid.1, hpaid.2.symm⟩ hkey
      · exact h.fee a p
    · exact h.total
    · intro a
      rw [getAddressLastTxTime_setAddressFee, getAddressLastTxTime_setAddressLastTxTime]
      split_ifs
      · exact UInt64.le_refl _
      · exact h.last_le a
    · intro a p hpaid
      rw [getAddressLastTxTime_setAddressFee, getAddressLastTxTime_setAddressLastTxTime]
      by_cases hold : paid a p = 0
      · obtain ⟨rfl, rfl, -⟩ : sender = a ∧ p = time / duration ∧ _ := by simpa [hold] using hpaid
        rw [if_pos rfl]
        exact UInt64.le_refl _
      · have hrecent := h.recent a p hold
        split_ifs with ha
        · exact UInt64.le_trans hrecent (ha ▸ hle)
        · exact hrecent

/-- All transactions of a block. -/
lemma Accounts.updateUsers (h : Accounts duration time paid total s) {txs : List Tx}
    {receipts : List UInt64}
    (hrun : updateUsers duration time (time / duration) txs receipts s = .ok s') :
    Accounts duration time (fun a p => paid a p +
      if time / duration = p then PoiBlock.spentBy a txs receipts else 0) total s' := by
  induction txs generalizing receipts paid s with
  | nil =>
    cases hrun
    simpa [PoiBlock.spentBy] using h
  | cons tx txs ih =>
    cases receipts with
    | nil => cases hrun
    | cons gasUsed receipts =>
      obtain ⟨s₁, hfirst, hrest⟩ := bind_eq_ok_iff.mp hrun
      have hall := ih (h.updateUser hfirst) hrest
      convert hall using 3 with a p
      simp only [PoiBlock.spentBy, eq_comm (a := p)]
      split_ifs <;> simp_all [Nat.add_assoc]

lemma Accounts.addPoiFee (h : Accounts duration now paid total s) (period : UInt64) (diff : ℕ) :
    Accounts duration now paid (fun p => total p + if period = p then diff else 0)
      (s.addPoiFee period diff) := by
  unfold Store.addPoiFee
  split_ifs with hdiff
  · simpa [hdiff] using h
  · refine ⟨h.fee, fun p => ?_, h.last_le, h.recent⟩
    rw [← h.total]
    simp only [Store.getPoiFee, ExtTreeMap.getElem?_insert, LawfulEqCmp.compare_eq_iff_eq,
      UInt64.toNat_inj]
    split_ifs with hp
    · rw [hp, Option.getD_some]
    · rfl

lemma updateStakerPOI_eq {period : UInt64} {id : StakerID} {address : Sfc.Address}
    (h : updateStakerPOI period s id address = .ok s') : ∃ sfc, s' = { s with sfc } := by
  unfold updateStakerPOI at h
  dsimp only at h
  split_ifs at h
  · cases h
    exact ⟨_, rfl⟩
  · split at h
    · cases h
    · split_ifs at h
      cases h
      exact ⟨_, rfl⟩

lemma updateStakersPOI_eq {blockTime : ℕ → Option Timestamp} {b : PoiBlock}
    (h : updateStakersPOI duration blockTime b s = .ok s') : ∃ sfc, s' = { s with sfc } := by
  have hloop : ∀ (l : List (StakerID × Staker)) (period : UInt64) (s s' : Store),
      l.foldlM (fun s it => updateStakerPOI period s it.1 it.2.address) s = .ok s' →
        ∃ sfc, s' = { s with sfc } := by
    intro l period
    induction l with
    | nil =>
      intro s s' hrun
      cases hrun
      exact ⟨s.sfc, rfl⟩
    | cons it l ih =>
      intro s s' hrun
      obtain ⟨s₁, hfirst, hrest⟩ := bind_eq_ok_iff.mp hrun
      obtain ⟨sfc, rfl⟩ := updateStakerPOI_eq hfirst
      obtain ⟨sfc', rfl⟩ := ih _ _ hrest
      exact ⟨sfc', rfl⟩
  simp only [updateStakersPOI, bind, bind_eq_ok_iff] at h
  obtain ⟨period, -, h⟩ := h
  split at h
  · cases h
  · obtain ⟨prev, -, h⟩ := bind_eq_ok_iff.mp h
    split_ifs at h
    · obtain ⟨s₁, hrun, h⟩ := bind_eq_ok_iff.mp h
      obtain ⟨sfc, rfl⟩ := hloop _ _ _ _ hrun
      cases h
      exact ⟨_, rfl⟩
    · cases h
      exact ⟨s.sfc, rfl⟩

end

/-! ### Blocks -/

/-- Blocks whose times do not decrease are executed one after the other, and the SFC index writes
its records in between. -/
inductive Run (duration : UInt64) : Store → List PoiBlock → Prop
  | start (sfc : Sfc.Store) : Run duration ⟨sfc, ∅, ∅, ∅⟩ []
  | block {s s₁ s' : Store} {blocks : List PoiBlock} (before : Run duration s blocks) (b : PoiBlock)
      (blockTime : ℕ → Option Timestamp) (times : ∀ x ∈ blocks, x.time ≤ b.time)
      (users : updateUsersPOI duration b s = .ok s₁)
      (stakers : updateStakersPOI duration blockTime b s₁ = .ok s') :
      Run duration s' (blocks ++ [b])
  | processSfc {s : Store} {blocks : List PoiBlock} (before : Run duration s blocks)
      (sfc : Sfc.Store) : Run duration { s with sfc } blocks

section

variable {duration : UInt64} {s : Store} {blocks : List PoiBlock}

lemma inPeriod_concat (f : PoiBlock → ℕ) (blocks : List PoiBlock) (b : PoiBlock) (period : UInt64) :
    inPeriod duration period f (blocks ++ [b]) =
      inPeriod duration period f blocks + if b.time / duration = period then f b else 0 := by
  rw [inPeriod, List.filter_append, List.map_append, List.sum_append, ← inPeriod]
  by_cases h : b.time / duration = period
  · simp [h]
  · simp [h]

/-- The tables account for all blocks of a run. -/
lemma Run.accounts (h : Run duration s blocks) {now : Timestamp}
    (hnow : ∀ x ∈ blocks, x.time ≤ now) :
    Accounts duration now
      (fun a p => inPeriod duration p (fun b => PoiBlock.spentBy a b.txs b.receipts) blocks)
      (fun p => inPeriod duration p PoiBlock.totalFee blocks) s := by
  induction h generalizing now with
  | start sfc =>
    refine ⟨fun _ _ => rfl, fun _ => rfl, fun _ => ?_, fun _ _ h => absurd rfl h⟩
    exact UInt64.le_iff_toNat_le.mpr (Nat.zero_le _)
  | processSfc _ sfc ih => exact (ih hnow).withSfc sfc
  | @block s s₁ s' blocks _ b blockTime times users stakers ih =>
    obtain ⟨sfc, rfl⟩ := updateStakersPOI_eq stakers
    obtain ⟨period, hperiod, husers⟩ := bind_eq_ok_iff.mp users
    obtain rfl := poiPeriod_eq hperiod
    have hblock := ((ih times).addPoiFee _ _).updateUsers husers
    simp only [inPeriod_concat]
    exact (hblock.mono (hnow b (by simp))).withSfc sfc

/-- After every run of blocks, the fee that is stored for an address and a period is the sum of the
fees of its transactions in the blocks of the period, and the fee of a period the sum of the fees of
its blocks. -/
theorem Run.fees_exact (h : Run duration s blocks) :
    (∀ address period, s.getAddressFee address period =
      inPeriod duration period (fun b => PoiBlock.spentBy address b.txs b.receipts) blocks) ∧
    ∀ period, s.getPoiFee period = inPeriod duration period PoiBlock.totalFee blocks := by
  have hmax : ∀ x ∈ blocks, x.time ≤ UInt64.ofNat (2 ^ 64 - 1) := by
    intro x _
    rw [UInt64.le_iff_toNat_le]
    exact Nat.le_of_lt_succ x.time.toNat_lt
  have haccounts := h.accounts hmax
  exact ⟨haccounts.fee, haccounts.total⟩

/-- A block with one transaction of the address 7. -/
def payment (index : ℕ) (time : Timestamp) (gasPrice : ℕ) : PoiBlock :=
  ⟨index, time, 2 * gasPrice, [⟨some 7, gasPrice⟩], [2]⟩

/-- The second block begins a new period, and the sum of the address with it. -/
theorem Run.fees_exact_payments : ∃ s, Run 10 s [payment 1 3 1, payment 2 12 5] ∧
    s.getAddressFee 7 0 = 2 ∧ s.getAddressFee 7 1 = 10 ∧ s.getPoiFee 1 = 10 := by
  have hrun : ∃ s, Run 10 s [payment 1 3 1, payment 2 12 5] := by
    have hstart : Run 10 ⟨⟨∅, ∅, fun _ => ∅, ∅, ∅, []⟩, ∅, ∅, ∅⟩ [] := .start _
    have hfirst := hstart.block (payment 1 3 1) (fun _ => some 3) (by simp) rfl rfl
    have htimes : ∀ x ∈ [payment 1 3 1], x.time ≤ (payment 2 12 5).time := by simp [payment]
    exact ⟨_, .block hfirst (payment 2 12 5) (fun _ => some 3) htimes rfl rfl⟩
  obtain ⟨s, hrun⟩ := hrun
  obtain ⟨hfee, htotal⟩ := hrun.fees_exact
  exact ⟨s, hrun, hfee 7 0, hfee 7 1, htotal 1⟩

end

end Lachesis.Poi
