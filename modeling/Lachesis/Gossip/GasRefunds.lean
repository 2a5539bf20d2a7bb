import Lachesis.Gossip.BlockAssembly

/-!
# Gas power refunds

After the EVM has executed the transactions of a block, the service gives the unused gas of each
transaction back to a validator: the creator of the first event of the block which contains the
transaction. Receipts, remaining transactions and positions are built apart and are joined by index
and by hash.

Over the blocks of an epoch a validator gets back at most the gas of the transactions in its own
block events, if the EVM executes a transaction once and uses at most its gas.
-/

namespace Lachesis

open Lachesis.Core Std BlockAssembly

/-- `types.Receipt`, as far as refunds go. -/
structure TxReceipt where
  txHash : Hash
  gasUsed : UInt64
  deriving DecidableEq, Repr

/-- The table `GasPowerRefund`, by epoch and validator. -/
abbrev GasPowerRefunds := ExtTreeMap ℕ (ExtTreeMap StakerID UInt64)

namespace GasPowerRefunds

/-- `Store.GetGasPowerRefund` -/
def get (t : GasPowerRefunds) (epoch : ℕ) (stakerID : StakerID) : UInt64 :=
  (t[epoch]?.bind (·[stakerID]?)).getD 0

/-- `Store.SetGasPowerRefund` -/
def set (t : GasPowerRefunds) (epoch : ℕ) (stakerID : StakerID) (refund : UInt64) :
    GasPowerRefunds :=
  t.insert epoch ((t[epoch]?.getD ∅).insert stakerID refund)

/-- `Store.IncGasPowerRefund` -/
def inc (t : GasPowerRefunds) (epoch : ℕ) (stakerID : StakerID) (diff : UInt64) : GasPowerRefunds :=
  if diff = 0 then t else t.set epoch stakerID (t.get epoch stakerID + diff)

/-- `Store.DelGasPowerRefunds` -/
def del (t : GasPowerRefunds) (epoch : ℕ) : GasPowerRefunds := t.erase epoch

end GasPowerRefunds

namespace GasRefunds

/-! ### Executing a block -/

/-- `StateProcessor.Process`, not strict. `result i tx` is what `ApplyTransaction` makes of the
transaction with index `i`: the gas used, or nothing if the transaction is skipped or fails. -/
def process (result : ℕ → Tx → Option UInt64) (txs : List Tx) : List TxReceipt × List ℕ :=
  txs.zipIdx.foldl (fun (receipts, skipped) (tx, i) =>
    match result i tx with
    | none => (receipts, skipped ++ [i])
    | some gas => (receipts ++ [⟨tx.hash, gas⟩], skipped)) ([], [])

def filterSkippedTxs (block : ExecBlock) (txs : List Tx) : List Tx :=
  (txs.zipIdx.foldl (fun (skipCount, filteredTxs) (tx, i) =>
    if skipCount < block.skippedTxs.length && block.skippedTxs[skipCount]? = some i then
      (skipCount + 1, filteredTxs)
    else (skipCount, filteredTxs ++ [tx])) (0, [])).2

/-- The zero value of `app.TxPosition`, which a map returns for a missing key. -/
def zeroPosition : TxPosition := ⟨zeroEvent, 0, 0, 0, 0⟩

/-- `applyNewState` notes the position in the block of each remaining transaction. -/
def setBlockPositions (index : ℕ) (txs : List Tx) (txPositions : ExtTreeMap Hash TxPosition) :
    ExtTreeMap Hash TxPosition :=
  txs.zipIdx.foldl (fun txPositions (tx, i) =>
    txPositions.insert tx.hash { txPositions.getD tx.hash zeroPosition with
      block := index, blockOffset := .ofNat i }) txPositions

def minGasPowerRefund : UInt64 := 800

/-- One round of the loop of `incGasPowerRefund`, for the transaction with index `i`. A call of
`IncGasPowerRefund` is the validator and the amount. -/
def refundCall (receipts : List TxReceipt) (txPositions : ExtTreeMap Hash TxPosition)
    (calls : List (StakerID × UInt64)) : Tx × ℕ → Except Fault (List (StakerID × UInt64))
  | (tx, i) =>
    match receipts[i]? with
    | none => .error .indexOutOfRange
    | some receipt =>
      let txEventPos := txPositions.getD receipt.txHash zeroPosition
      if tx.gas < receipt.gasUsed then .error (.crit .gasUsedAboveLimit)
      else
        let notUsedGas := tx.gas - receipt.gasUsed
        if minGasPowerRefund ≤ notUsedGas then .ok (calls ++ [(txEventPos.creator, notUsedGas)])
        else .ok calls

/-- The calls of `IncGasPowerRefund` in the loop of `incGasPowerRefund`. -/
def refundCalls (txs : List Tx) (receipts : List TxReceipt)
    (txPositions : ExtTreeMap Hash TxPosition) : Except Fault (List (StakerID × UInt64)) :=
  txs.zipIdx.foldlM (refundCall receipts txPositions) []

/-- `epoch - 1` of `uint32`. -/
def prevEpoch (epoch : ℕ) : ℕ := (epoch + (2 ^ 32 - 1)) % 2 ^ 32

/-- `Service.incGasPowerRefund`, given the calls of its loop. -/
def incGasPowerRefund (epoch : ℕ) (calls : List (StakerID × UInt64)) (sealEpoch : Bool)
    (t : GasPowerRefunds) : GasPowerRefunds :=
  let t := calls.foldl (fun t (stakerID, diff) => t.inc epoch stakerID diff) t
  if sealEpoch then t.del (prevEpoch epoch) else t

/-- A decided block, what the EVM makes of its transactions and whether it seals the epoch. -/
structure BlockInput where
  block : Block
  result : ℕ → Tx → Option UInt64
  sealEpoch : Bool

/-- What `applyNewState` has for a block after `incGasPowerRefund`. -/
structure AppliedBlock where
  block : ExecBlock
  transactions : List Tx
  receipts : List TxReceipt
  /-- The refunds that were added. -/
  calls : List (StakerID × UInt64)

section Model

variable (getEvent : EventID → Option BlockEvent) (limit : UInt64) (epoch : ℕ)

/-- `Service.applyNewState` up to the refunds. -/
def applyTxs (t : GasPowerRefunds) (input : BlockInput) :
    Except Fault (AppliedBlock × GasPowerRefunds) := do
  let (block, transactions, blockEvents) ← assembleEvmBlock getEvent limit (.new input.block)
  let positions := txPositions blockEvents
  let (receipts, skippedTxs) := process input.result transactions
  let block := { block with skippedTxs }
  let transactions := filterSkippedTxs block transactions
  let positions := setBlockPositions block.index transactions positions
  let calls ← refundCalls transactions receipts positions
  return (⟨block, transactions, receipts, calls⟩,
    incGasPowerRefund epoch calls input.sealEpoch t)

/-- The blocks of an epoch, one after the other. -/
def applyEpoch (t : GasPowerRefunds) (inputs : List BlockInput) :
    Except Fault (List AppliedBlock × GasPowerRefunds) :=
  inputs.foldlM (fun (applied, t) input => do
    let (a, t) ← applyTxs getEvent limit epoch t input
    return (applied ++ [a], t)) ([], t)

end Model

/-! ### Receipts and remaining transactions -/

/-- The executed transactions with the gas they used; the first one has index `k`. -/
def executed (result : ℕ → Tx → Option UInt64) (txs : List Tx) (k : ℕ) : List (Tx × UInt64) :=
  (txs.zipIdx k).filterMap fun p => (result p.2 p.1).map fun gas => (p.1, gas)

/-- The indexes of the other transactions. -/
def skips (result : ℕ → Tx → Option UInt64) (txs : List Tx) (k : ℕ) : List ℕ :=
  (txs.zipIdx k).filterMap fun p => if result p.2 p.1 = none then some p.2 else none

section Execution

variable {result : ℕ → Tx → Option UInt64} {tx : Tx} {txs : List Tx} {k : ℕ}

lemma executed_cons_none (h : result k tx = none) :
    executed result (tx :: txs) k = executed result txs (k + 1) := by
  simp [executed, List.zipIdx_cons, h]

lemma executed_cons_some {gas : UInt64} (h : result k tx = some gas) :
    executed result (tx :: txs) k = (tx, gas) :: executed result txs (k + 1) := by
  simp [executed, List.zipIdx_cons, h]

lemma skips_cons_none (h : result k tx = none) :
    skips result (tx :: txs) k = k :: skips result txs (k + 1) := by
  simp [skips, List.zipIdx_cons, h]

lemma skips_cons_some {gas : UInt64} (h : result k tx = some gas) :
    skips result (tx :: txs) k = skips result txs (k + 1) := by
  simp [skips, List.zipIdx_cons, h]

lemma le_of_mem_skips {i : ℕ} (h : i ∈ skips result txs k) : k ≤ i := by
  rw [skips, List.mem_filterMap] at h
  obtain ⟨p, hp, hi⟩ := h
  split_ifs at hi
  cases hi
  exact (List.mem_zipIdx hp).1

variable (result txs k) in
lemma foldl_process (receipts : List TxReceipt) (skipped : List ℕ) :
    (txs.zipIdx k).foldl (fun (r : List TxReceipt × List ℕ) (p : Tx × ℕ) =>
        match result p.2 p.1 with
        | none => (r.1, r.2 ++ [p.2])
        | some gas => (r.1 ++ [⟨p.1.hash, gas⟩], r.2)) (receipts, skipped) =
      (receipts ++ (executed result txs k).map fun p => ⟨p.1.hash, p.2⟩,
        skipped ++ skips result txs k) := by
  induction txs generalizing k receipts skipped with
  | nil => simp [executed, skips]
  | cons tx txs ih =>
    rw [List.zipIdx_cons, List.foldl_cons]
    cases h : result k tx with
    | none =>
      simp only
      rw [ih, executed_cons_none h, skips_cons_none h, List.append_assoc, List.singleton_append]
    | some gas =>
      simp only
      rw [ih, executed_cons_some h, skips_cons_some h, List.append_assoc, List.map_cons,
        List.singleton_append]

lemma process_eq (result : ℕ → Tx → Option UInt64) (txs : List Tx) :
    process result txs =
      ((executed result txs 0).map fun p => ⟨p.1.hash, p.2⟩, skips result txs 0) := by
  rw [process]
  simpa only [List.nil_append] using foldl_process result txs 0 [] []

variable (result txs k) in
/-- The index of the next skipped transaction is compared with that of the current one. -/
lemma foldl_filterSkippedTxs (pre : List ℕ) (filteredTxs : List Tx) :
    ((txs.zipIdx k).foldl (fun (r : ℕ × List Tx) (p : Tx × ℕ) =>
        if r.1 < (pre ++ skips result txs k).length &&
            (pre ++ skips result txs k)[r.1]? = some p.2 then (r.1 + 1, r.2)
        else (r.1, r.2 ++ [p.1])) (pre.length, filteredTxs)).2 =
      filteredTxs ++ (executed result txs k).map (·.1) := by
  induction txs generalizing k pre filteredTxs with
  | nil => simp [executed]
  | cons tx txs ih =>
    rw [List.zipIdx_cons, List.foldl_cons]
    cases h : result k tx with
    | none =>
      have hlist : pre ++ skips result (tx :: txs) k = (pre ++ [k]) ++ skips result txs (k + 1) := by
        rw [skips_cons_none h, List.append_assoc, List.singleton_append]
      have hhere : (pre.length < (pre ++ skips result (tx :: txs) k).length &&
          (pre ++ skips result (tx :: txs) k)[pre.length]? = some k) = true := by
        simp [skips_cons_none h]
      have hlen : (pre ++ [k]).length = pre.length + 1 := by simp
      simp only [hhere, if_true]
      rw [executed_cons_none h, hlist, ← ih (k + 1) (pre ++ [k]) filteredTxs, hlen]
    | some gas =>
      have hother : (pre.length < (pre ++ skips result (tx :: txs) k).length &&
          (pre ++ skips result (tx :: txs) k)[pre.length]? = some k) = false := by
        rw [skips_cons_some h, List.getElem?_append_right le_rfl, Nat.sub_self, Bool.and_eq_false_iff]
        refine .inr (decide_eq_false fun hk => ?_)
        have := le_of_mem_skips (List.mem_of_getElem? hk)
        omega
      simp only [hother, Bool.false_eq_true, if_false]
      rw [executed_cons_some h, skips_cons_some h, ih, List.append_assoc, List.map_cons,
        List.singleton_append]

lemma filterSkippedTxs_eq (block : ExecBlock) (hskipped : block.skippedTxs = skips result txs 0) :
    filterSkippedTxs block txs = (executed result txs 0).map (·.1) := by
  have hrun := foldl_filterSkippedTxs result txs 0 [] []
  rw [filterSkippedTxs, hskipped]
  simpa only [List.nil_append, List.length_nil] using hrun

lemma mem_of_mem_executed {p : Tx × UInt64} (h : p ∈ executed result txs k) :
    p.1 ∈ txs ∧ ∃ i, result i p.1 = some p.2 := by
  rw [executed, List.mem_filterMap] at h
  obtain ⟨⟨tx, i⟩, hi, hp⟩ := h
  obtain ⟨gas, hgas, rfl⟩ := Option.map_eq_some_iff.mp hp
  exact ⟨List.fst_mem_of_mem_zipIdx hi, i, hgas⟩

end Execution

/-! ### The refunds of a block -/

/-- The refund for an executed transaction. -/
def refund (txPositions : ExtTreeMap Hash TxPosition) (p : Tx × UInt64) :
    Option (StakerID × UInt64) :=
  if minGasPowerRefund ≤ p.1.gas - p.2 then
    some ((txPositions.getD p.1.hash zeroPosition).creator, p.1.gas - p.2)
  else none

/-- Every executed transaction with gas left is refunded. -/
lemma refundCalls_ok {ex : List (Tx × UInt64)} (hgas : ∀ p ∈ ex, p.2 ≤ p.1.gas)
    (txPositions : ExtTreeMap Hash TxPosition) :
    refundCalls (ex.map (·.1)) (ex.map fun p => ⟨p.1.hash, p.2⟩) txPositions =
      .ok (ex.filterMap (refund txPositions)) := by
  have hloop := foldlM_ok
    (refundCall (ex.map fun p => ⟨p.1.hash, p.2⟩) txPositions) (ex.map (·.1)).zipIdx []
    (fun done calls => calls = (ex.take done.length).filterMap (refund txPositions)) rfl ?_
  · obtain ⟨calls, hrun, hcalls⟩ := hloop
    rw [refundCalls, hrun, hcalls]
    simp
  · rintro done ⟨tx, i⟩ rest calls hsplit rfl
    have hat : (ex.map (·.1)).zipIdx[done.length]? = some (tx, i) := by rw [hsplit]; simp
    rw [List.getElem?_zipIdx, Option.map_eq_some_iff] at hat
    obtain ⟨tx', htx, heq⟩ := hat
    cases heq
    rw [List.getElem?_map, Option.map_eq_some_iff] at htx
    obtain ⟨p, hp, rfl⟩ := htx
    have hle : ¬ p.1.gas < p.2 := UInt64.not_lt.mpr (hgas p (List.mem_of_getElem? hp))
    have htake : ex.take (done.length + 1) = ex.take done.length ++ [p] := by
      rw [List.take_add_one, hp, Option.toList_some]
    simp only [refundCall, List.getElem?_map, Nat.zero_add, hp, Option.map_some, hle, if_false,
      List.length_append, List.length_singleton, htake, List.filterMap_append]
    split_ifs with hmin
    · exact ⟨_, rfl, by simp [refund, hmin]⟩
    · exact ⟨_, rfl, by simp [refund, hmin]⟩

lemma creator_setBlockPositions (index : ℕ) (txs : List Tx) (h : Hash)
    (txPositions : ExtTreeMap Hash TxPosition) :
    ((setBlockPositions index txs txPositions).getD h zeroPosition).creator =
      (txPositions.getD h zeroPosition).creator := by
  rw [setBlockPositions]
  generalize txs.zipIdx = l
  induction l generalizing txPositions with
  | nil => rfl
  | cons p l ih =>
    rw [List.foldl_cons, ih, ExtTreeMap.getD_insert]
    split_ifs with heq
    · rw [Std.compare_eq_iff_eq.mp heq]
    · rfl

lemma exists_firstPosition {es : List BlockEvent} {tx : Tx} (h : tx ∈ es.flatMap (·.transactions)) :
    ∃ e ∈ es, ∃ tx' ∈ e.transactions, tx'.hash = tx.hash ∧
      ((txPositions (es ++ es)).getD tx.hash zeroPosition).creator = e.creator := by
  rw [ExtTreeMap.getD_eq_getD_getElem?, getElem?_txPositions, firstPosition_append_self]
  obtain ⟨e, he, htx⟩ := List.mem_flatMap.mp h
  cases hpos : firstPosition es tx.hash with
  | none =>
    have hnone := List.findSome?_eq_none_iff.mp hpos e he
    rw [Option.map_eq_none_iff, List.findIdx?_eq_none_iff] at hnone
    simpa using hnone tx htx
  | some pos =>
    obtain ⟨e', he', hpos⟩ := List.exists_of_findSome?_eq_some hpos
    obtain ⟨i, hi, rfl⟩ := Option.map_eq_some_iff.mp hpos
    obtain ⟨hlt, hhash, -⟩ := List.findIdx?_eq_some_iff_getElem.mp hi
    exact ⟨e', he', e'.transactions[i], List.getElem_mem hlt, by simpa using hhash, rfl⟩

/-- What the calls add for a validator. -/
def added (v : StakerID) (calls : List (StakerID × UInt64)) : ℕ :=
  ((calls.filter (·.1 = v)).map (·.2.toNat)).sum

/-- The gas of the transactions in a validator's events. -/
def paidGas (v : StakerID) (es : List BlockEvent) : ℕ :=
  (((es.filter (·.creator = v)).flatMap (·.transactions)).map (·.gas.toNat)).sum

lemma sum_le_of_subperm {txs txs' : List Tx} (h : txs.Subperm txs') :
    (txs.map (·.gas.toNat)).sum ≤ (txs'.map (·.gas.toNat)).sum := by
  obtain ⟨l, hperm, hsub⟩ := h
  rw [← (hperm.map _).sum_eq]
  exact (hsub.map _).sum_le_sum fun _ _ => Nat.zero_le _

lemma added_refund_le {ex : List (Tx × UInt64)} (hgas : ∀ p ∈ ex, p.2 ≤ p.1.gas) (v : StakerID)
    (txPositions : ExtTreeMap Hash TxPosition) :
    added v (ex.filterMap (refund txPositions)) ≤
      (((ex.filter fun p => (txPositions.getD p.1.hash zeroPosition).creator = v).map
        (·.1)).map (·.gas.toNat)).sum := by
  induction ex with
  | nil => exact le_rfl
  | cons p ex ih =>
    have ih := ih fun q hq => hgas q (List.mem_cons_of_mem p hq)
    have hle : (p.1.gas - p.2).toNat ≤ p.1.gas.toNat := by
      rw [UInt64.toNat_sub_of_le _ _ (hgas p List.mem_cons_self)]
      exact Nat.sub_le _ _
    by_cases hmin : minGasPowerRefund ≤ p.1.gas - p.2
    · by_cases hv : (txPositions.getD p.1.hash zeroPosition).creator = v
      · simp only [added, List.filterMap_cons, refund, hmin, if_true, List.filter_cons, hv,
          decide_true, List.map_cons, List.sum_cons] at ih ⊢
        exact Nat.add_le_add hle ih
      · simpa only [added, List.filterMap_cons, refund, hmin, if_true, List.filter_cons, hv,
          decide_false, Bool.false_eq_true, if_false] using ih
    · have hnone : refund txPositions p = none := if_neg hmin
      rw [List.filterMap_cons_none hnone]
      refine ih.trans ?_
      exact (((List.sublist_cons_self p ex).filter _).map _ |>.map _).sum_le_sum
        fun _ _ => Nat.zero_le _

/-- What `applyTxs` makes of a block: `es` are its kept events, `ex` the executed transactions with
the gas they used. -/
structure Refunded (getEvent : EventID → Option BlockEvent) (a : AppliedBlock)
    (es : List BlockEvent) (ex : List (Tx × UInt64)) : Prop where
  events : a.block.events.map getEvent = es.map some
  transactions : a.transactions = ex.map (·.1)
  receipts : a.receipts = ex.map fun p => ⟨p.1.hash, p.2⟩
  mem : ∀ p ∈ ex, p.1 ∈ es.flatMap (·.transactions)
  gas : ∀ p ∈ ex, p.2 ≤ p.1.gas
  calls : ∃ positions : ExtTreeMap Hash TxPosition,
    (∀ h, (positions.getD h zeroPosition).creator =
      ((txPositions (es ++ es)).getD h zeroPosition).creator) ∧
    a.calls = ex.filterMap (refund positions)

/-- No two transactions of stored events have the same hash. -/
def TxHashes (getEvent : EventID → Option BlockEvent) : Prop :=
  ∀ id e id' e', getEvent id = some e → getEvent id' = some e' →
    ∀ tx ∈ e.transactions, ∀ tx' ∈ e'.transactions, tx.hash = tx'.hash → tx = tx'

section Blocks

variable {getEvent : EventID → Option BlockEvent}
variable {a : AppliedBlock} {es : List BlockEvent} {ex : List (Tx × UInt64)}

lemma exists_mem_events (hes : a.block.events.map getEvent = es.map some) {e : BlockEvent}
    (he : e ∈ es) : ∃ id ∈ a.block.events, getEvent id = some e := by
  have hmem : some e ∈ a.block.events.map getEvent := hes ▸ List.mem_map_of_mem he
  simpa using hmem

/-- A validator gets back no more than its transactions reserved. -/
lemma Refunded.exists_charged (h : Refunded getEvent a es ex) (hinj : TxHashes getEvent)
    (v : StakerID) :
    ∃ txs : List Tx, (txs.map (·.hash)).Sublist (a.receipts.map (·.txHash)) ∧
      added v a.calls ≤ (txs.map (·.gas.toNat)).sum ∧
      ∀ tx ∈ txs, ∃ id ∈ a.block.events, ∃ e, getEvent id = some e ∧ e.creator = v ∧
        tx ∈ e.transactions := by
  obtain ⟨positions, hpos, hcalls⟩ := h.calls
  refine ⟨(ex.filter fun p => (positions.getD p.1.hash zeroPosition).creator = v).map (·.1),
    ?_, hcalls ▸ added_refund_le h.gas v positions, ?_⟩
  · rw [h.receipts, List.map_map, List.map_map]
    exact List.filter_sublist.map _
  · intro tx htx
    obtain ⟨p, hp, rfl⟩ := List.mem_map.mp htx
    obtain ⟨hp, hv⟩ := List.mem_filter.mp hp
    -- the event where the transaction was first met, and one that contains it
    obtain ⟨e, he, tx', htx', hhash, hcreator⟩ := exists_firstPosition (h.mem p hp)
    obtain ⟨e₀, he₀, htx₀⟩ := List.mem_flatMap.mp (h.mem p hp)
    obtain ⟨id, hid, hget⟩ := exists_mem_events h.events he
    obtain ⟨id₀, -, hget₀⟩ := exists_mem_events h.events he₀
    obtain rfl : tx' = p.1 := hinj id e id₀ e₀ hget hget₀ tx' htx' p.1 htx₀ hhash
    refine ⟨id, hid, e, hget, ?_, htx'⟩
    rw [← hcreator, ← hpos]
    simpa using hv

lemma applyTxs_ok (limit : UInt64) (epoch : ℕ) (t : GasPowerRefunds) {input : BlockInput}
    (hstored : ∀ id ∈ input.block.events, (getEvent id).isSome)
    (hgas : ∀ i tx gas, input.result i tx = some gas → gas ≤ tx.gas) :
    ∃ a, applyTxs getEvent limit epoch t input =
        .ok (a, incGasPowerRefund epoch a.calls input.sealEpoch t) ∧
      ∃ es ex, Refunded getEvent a es ex := by
  obtain ⟨es, hes⟩ := exists_events hstored
  obtain ⟨n, -, -, hrun⟩ := assembleEvmBlock_ok limit hes
  have hex : ∀ p ∈ executed input.result ((es.drop n).flatMap (·.transactions)) 0,
      p.2 ≤ p.1.gas := by
    intro p hp
    obtain ⟨-, i, hi⟩ := mem_of_mem_executed hp
    exact hgas i p.1 p.2 hi
  have hkept : (input.block.events.drop n).map getEvent = (es.drop n).map some := by
    rw [List.map_drop, hes, List.map_drop]
  simp only [applyTxs, hrun, bind, Except.bind, process_eq, pure, Except.pure]
  rw [filterSkippedTxs_eq _ rfl, refundCalls_ok hex]
  refine ⟨_, rfl, es.drop n, _, hkept, rfl, rfl, fun p hp => (mem_of_mem_executed hp).1, hex, _,
    fun h => ?_, rfl⟩
  exact creator_setBlockPositions _ _ _ _

end Blocks

/-! ### The stored refunds -/

section Stored

variable {epoch : ℕ} {v : StakerID}

lemma get_inc (t : GasPowerRefunds) (epoch : ℕ) (stakerID v : StakerID) (diff : UInt64) :
    (t.inc epoch stakerID diff).get epoch v =
      t.get epoch v + if stakerID = v then diff else 0 := by
  rw [GasPowerRefunds.inc]
  split_ifs with hzero hv hv
  · rw [hzero, UInt64.add_zero]
  · rw [UInt64.add_zero]
  · subst hv
    simp [GasPowerRefunds.get, GasPowerRefunds.set]
  · rw [UInt64.add_zero]
    simp only [GasPowerRefunds.get, GasPowerRefunds.set, ExtTreeMap.getElem?_insert_self,
      Option.bind_some, ExtTreeMap.getElem?_insert, Std.compare_eq_iff_eq, hv, if_false]
    cases t[epoch]? <;> simp

lemma get_foldl_inc (t : GasPowerRefunds) (epoch : ℕ) (v : StakerID)
    (calls : List (StakerID × UInt64)) :
    (calls.foldl (fun t (c : StakerID × UInt64) => t.inc epoch c.1 c.2) t).get epoch v =
      t.get epoch v + .ofNat (added v calls) := by
  induction calls generalizing t with
  | nil => exact (UInt64.add_zero _).symm
  | cons c calls ih =>
    have hcons : added v (c :: calls) = (if c.1 = v then c.2.toNat else 0) + added v calls := by
      rw [added, List.filter_cons]
      split_ifs with h₁ h₂ h₂ <;> simp_all [added]
    rw [List.foldl_cons, ih, get_inc, hcons, UInt64.ofNat_add, UInt64.add_assoc]
    split_ifs
    · rw [UInt64.ofNat_toNat]
    · rfl

lemma prevEpoch_ne (epoch : ℕ) : prevEpoch epoch ≠ epoch := by
  unfold prevEpoch
  omega

lemma get_incGasPowerRefund (t : GasPowerRefunds) (epoch : ℕ) (v : StakerID)
    (calls : List (StakerID × UInt64)) (sealEpoch : Bool) :
    (incGasPowerRefund epoch calls sealEpoch t).get epoch v =
      t.get epoch v + .ofNat (added v calls) := by
  rw [← get_foldl_inc, incGasPowerRefund]
  split_ifs
  · simp only [GasPowerRefunds.get, GasPowerRefunds.del, ExtTreeMap.getElem?_erase,
      Std.compare_eq_iff_eq, prevEpoch_ne epoch, if_false]
  · rfl

end Stored

/-! ### The blocks of an epoch -/

section Epoch

variable {getEvent : EventID → Option BlockEvent}

/-- All that the blocks add for a validator. -/
def totalAdded (v : StakerID) (applied : List AppliedBlock) : ℕ :=
  (applied.map fun a => added v a.calls).sum

/-- The events of the blocks, each once. -/
def blockEventsOf (getEvent : EventID → Option BlockEvent) (applied : List AppliedBlock) :
    List BlockEvent :=
  (applied.flatMap (·.block.events)).dedup.filterMap getEvent

section

variable (hinj : TxHashes getEvent) (v : StakerID) {applied : List AppliedBlock}
  (happlied : ∀ a ∈ applied, ∃ es ex, Refunded getEvent a es ex)
include hinj v happlied

lemma exists_charged_epoch :
    ∃ txs : List Tx,
      (txs.map (·.hash)).Sublist ((applied.flatMap (·.receipts)).map (·.txHash)) ∧
      totalAdded v applied ≤ (txs.map (·.gas.toNat)).sum ∧
      ∀ tx ∈ txs, ∃ id ∈ applied.flatMap (·.block.events), ∃ e, getEvent id = some e ∧
        e.creator = v ∧ tx ∈ e.transactions := by
  induction applied with
  | nil => exact ⟨[], .slnil, le_rfl, by simp⟩
  | cons a applied ih =>
    obtain ⟨es, ex, ha⟩ := happlied a List.mem_cons_self
    obtain ⟨txs, hsub, hle, hmem⟩ := ha.exists_charged hinj v
    obtain ⟨txs', hsub', hle', hmem'⟩ := ih fun b hb => happlied b (List.mem_cons_of_mem a hb)
    refine ⟨txs ++ txs', ?_, ?_, fun tx htx => ?_⟩
    · rw [List.flatMap_cons, List.map_append, List.map_append]
      exact hsub.append hsub'
    · rw [totalAdded, List.map_cons, List.sum_cons, List.map_append, List.sum_append]
      exact Nat.add_le_add hle hle'
    · rw [List.flatMap_cons]
      rcases List.mem_append.mp htx with htx | htx
      · obtain ⟨id, hid, he⟩ := hmem tx htx
        exact ⟨id, List.mem_append_left _ hid, he⟩
      · obtain ⟨id, hid, he⟩ := hmem' tx htx
        exact ⟨id, List.mem_append_right _ hid, he⟩

/-- If no transaction is executed twice, what a validator gets back is covered by the gas of the
transactions in its own events. -/
theorem totalAdded_le_paidGas (honce : ((applied.flatMap (·.receipts)).map (·.txHash)).Nodup) :
    totalAdded v applied ≤ paidGas v (blockEventsOf getEvent applied) := by
  obtain ⟨txs, hsub, hle, hmem⟩ := exists_charged_epoch hinj v happlied
  refine hle.trans (sum_le_of_subperm (List.subperm_of_subset ?_ fun tx htx => ?_))
  · exact List.Nodup.of_map Tx.hash (honce.sublist hsub)
  · obtain ⟨id, hid, e, hget, hcreator, htx⟩ := hmem tx htx
    refine List.mem_flatMap.mpr ⟨e, List.mem_filter.mpr ⟨?_, decide_eq_true hcreator⟩, htx⟩
    exact List.mem_filterMap.mpr ⟨id, List.mem_dedup.mpr hid, hget⟩

end

/-- Over the blocks of an epoch each receipt belongs to the remaining transaction of its index, and
if no transaction is executed twice, the refunds of a validator are covered by the gas of the
transactions in its own block events. -/
theorem applyEpoch_refunds_covered (limit : UInt64) (epoch : ℕ) (t : GasPowerRefunds)
    {inputs : List BlockInput}
    (hstored : ∀ input ∈ inputs, ∀ id ∈ input.block.events, (getEvent id).isSome)
    (hgas : ∀ input ∈ inputs, ∀ i tx gas, input.result i tx = some gas → gas ≤ tx.gas)
    (hinj : TxHashes getEvent) :
    ∃ applied t', applyEpoch getEvent limit epoch t inputs = .ok (applied, t') ∧
      applied.length = inputs.length ∧
      (∀ a ∈ applied, List.Forall₂ (fun receipt tx => receipt.txHash = tx.hash ∧
        receipt.gasUsed ≤ tx.gas) a.receipts a.transactions) ∧
      (∀ v, t'.get epoch v = t.get epoch v + .ofNat (totalAdded v applied)) ∧
      (((applied.flatMap (·.receipts)).map (·.txHash)).Nodup →
        ∀ v, totalAdded v applied ≤ paidGas v (blockEventsOf getEvent applied)) := by
  have hloop := foldlM_ok (fun (r : List AppliedBlock × GasPowerRefunds) input => do
      let (a, t) ← applyTxs getEvent limit epoch r.2 input
      return (r.1 ++ [a], t)) inputs ([], t)
    (fun done r => r.1.length = done.length ∧
      (∀ a ∈ r.1, ∃ es ex, Refunded getEvent a es ex) ∧
      ∀ v, r.2.get epoch v = t.get epoch v + .ofNat (totalAdded v r.1))
    ⟨rfl, by simp, fun v => (UInt64.add_zero _).symm⟩ ?_
  · obtain ⟨⟨applied, t'⟩, hrun, hlen, happlied, hget⟩ := hloop
    refine ⟨applied, t', hrun, hlen, fun a ha => ?_, hget,
      fun honce v => totalAdded_le_paidGas hinj v happlied honce⟩
    obtain ⟨es, ex, hrefunded⟩ := happlied a ha
    rw [hrefunded.receipts, hrefunded.transactions, List.forall₂_map_left_iff,
      List.forall₂_map_right_iff, List.forall₂_same]
    exact fun p hp => ⟨rfl, hrefunded.gas p hp⟩
  · rintro done input rest ⟨applied, t'⟩ hsplit ⟨hlen, happlied, hget⟩
    have hinput : input ∈ inputs := by simp [hsplit]
    obtain ⟨a, hrun, es, ex, ha⟩ :=
      applyTxs_ok limit epoch t' (hstored input hinput) (hgas input hinput)
    refine ⟨(applied ++ [a], incGasPowerRefund epoch a.calls input.sealEpoch t'), ?_, ?_, ?_, ?_⟩
    · simp only [hrun, bind, Except.bind, pure, Except.pure]
    · simp only [List.length_append, hlen, List.length_singleton]
    · intro b hb
      rcases List.mem_append.mp hb with hb | hb
      · exact happlied b hb
      · rw [List.mem_singleton.mp hb]
        exact ⟨es, ex, ha⟩
    · intro v
      have htotal : totalAdded v (applied ++ [a]) = totalAdded v applied + added v a.calls := by
        simp [totalAdded]
      rw [get_incGasPowerRefund, hget, htotal, UInt64.ofNat_add, UInt64.add_assoc]

end Epoch

/-- A transaction of the first event is also in the second one. -/
def repeatingStore (id : EventID) : Option BlockEvent :=
  if id = 7 then some ⟨7, 1, 21000, [⟨5, 21000⟩]⟩
  else if id = 8 then some ⟨8, 2, 51000, [⟨5, 21000⟩, ⟨6, 30000⟩]⟩
  else none

/-- The repeated transaction is skipped at first. -/
def repeatingInput : BlockInput where
  block := ⟨1, 1, 8, 0, [7, 8]⟩
  result i tx := if i = 0 ∨ tx.gas < 20000 then none else some 20000
  sealEpoch := true

lemma txHashes_repeatingStore : TxHashes repeatingStore := by
  have hstore : ∀ id e, repeatingStore id = some e →
      e ∈ [⟨7, 1, 21000, [⟨5, 21000⟩]⟩, ⟨8, 2, 51000, [⟨5, 21000⟩, ⟨6, 30000⟩]⟩] := by
    intro id e he
    rw [repeatingStore] at he
    split_ifs at he <;> simp_all
  have hinj : ∀ e ∈ ([⟨7, 1, 21000, [⟨5, 21000⟩]⟩,
      ⟨8, 2, 51000, [⟨5, 21000⟩, ⟨6, 30000⟩]⟩] : List BlockEvent),
      ∀ e' ∈ ([⟨7, 1, 21000, [⟨5, 21000⟩]⟩,
        ⟨8, 2, 51000, [⟨5, 21000⟩, ⟨6, 30000⟩]⟩] : List BlockEvent),
      ∀ tx ∈ e.transactions, ∀ tx' ∈ e'.transactions, tx.hash = tx'.hash → tx = tx' := by decide
  exact fun id e id' e' he he' => hinj e (hstore id e he) e' (hstore id' e' he')

lemma gasUsed_repeatingInput (i : ℕ) (tx : Tx) (gas : UInt64)
    (h : repeatingInput.result i tx = some gas) : gas ≤ tx.gas := by
  simp only [repeatingInput] at h
  split_ifs at h with hlow
  cases h
  exact UInt64.not_lt.mp fun hlt => hlow (.inr hlt)

theorem applyEpoch_refunds_covered_repeating :
    ∃ applied t', applyEpoch repeatingStore 20000000 1 ∅ [repeatingInput] = .ok (applied, t') ∧
      applied.length = [repeatingInput].length ∧
      (∀ a ∈ applied, List.Forall₂ (fun receipt tx => receipt.txHash = tx.hash ∧
        receipt.gasUsed ≤ tx.gas) a.receipts a.transactions) ∧
      (∀ v, t'.get 1 v = GasPowerRefunds.get ∅ 1 v + .ofNat (totalAdded v applied)) ∧
      (((applied.flatMap (·.receipts)).map (·.txHash)).Nodup →
        ∀ v, totalAdded v applied ≤ paidGas v (blockEventsOf repeatingStore applied)) :=
  applyEpoch_refunds_covered 20000000 1 ∅ (by decide) (by simpa using gasUsed_repeatingInput)
    txHashes_repeatingStore

/-- The transaction that both events contain is executed once, and its unused gas goes to the creator
of the first event. -/
example : (applyEpoch repeatingStore 20000000 1 ∅ [repeatingInput]).map
    (fun r => (r.1.map (·.calls), r.1.map (·.receipts.map (·.txHash)))) =
      .ok ([[(1, 1000), (2, 10000)]], [[5, 6]]) := by decide +kernel

end GasRefunds

end Lachesis
