import Lachesis.Poset.Sequence
import Lachesis.Topicsdb.Index

/-!
# Sealing an epoch

Whether a block is the last one of its epoch is decided twice. The service counts the decided frames
of the consensus engine and takes the time from the statistics of the pending epoch; the application
counts blocks and time since the last voting. A node stops with a panic if they disagree.

Each rule reads counters that another component keeps. Over every run of blocks from the genesis the
counters stay in step, so the rules agree and the panic cannot be reached.
-/

namespace Lachesis

open Lachesis.Core Std

/-! ### Receipts -/

/-- `types.Receipt`, as far as its logs go. -/
structure Receipt where
  logs : List Log

/-- What the EVM returns for a block: the receipts, the fee and the hash of the transactions. -/
structure Execution where
  receipts : List Receipt
  totalFee : ℕ
  txHash : Hash

/-- `sfctype.EpochIsForceSealed`, given the hash of `AdvanceEpoch()`. -/
def epochIsForceSealed (asSigHash : HashBytes) (receipts : List Receipt) : Bool :=
  receipts.any fun receipt => receipt.logs.any fun log => log.topics.head? = some asSigHash

/-! ### The application -/

/-- The network's rules on the ends of epochs, and the time of its genesis. -/
structure Net where
  /-- `DagConfig.MaxEpochBlocks` -/
  maxEpochBlocks : UInt32
  /-- `DagConfig.MaxEpochDuration` -/
  maxEpochDuration : Int64
  /-- `Genesis.Time` -/
  genesisTime : Timestamp
  /-- The hash of `AdvanceEpoch()`. -/
  asSigHash : HashBytes

/-- `app.App` with its store, as far as epochs go. -/
structure App where
  /-- The block and the time of the last voting, once they are stored. -/
  lastVoting : Option (UInt64 × Timestamp)
  epoch : UInt32
  deriving DecidableEq

namespace App

/-- `Store.GetLastVoting` -/
def getLastVoting (a : App) : UInt64 × Timestamp := a.lastVoting.getD (0, 0)

def shouldSealEpoch (net : Net) (a : App) (block : Block) (cheaters : List StakerID) : Bool :=
  let (startBlock, startTime) := a.getLastVoting
  net.maxEpochBlocks.toUInt64 ≤ .ofNat block.index - startBlock ||
    net.maxEpochDuration.toUInt64 ≤ block.time - startTime || 0 < cheaters.length

/-- What `DeliverTxs` makes of the decision of `BeginBlock`. -/
def deliverTxs (net : Net) (sealEpoch : Bool) (executed : Execution) : Bool :=
  sealEpoch || epochIsForceSealed net.asSigHash executed.receipts

/-- `App.EndBlock`: the voting and the epoch. -/
def endBlock (a : App) (sealEpoch : Bool) (block : Block) : App :=
  if sealEpoch then ⟨some (.ofNat block.index, block.time), a.epoch + 1⟩ else a

end App

/-! ### The service -/

/-- `sfctype.EpochStats` -/
structure EpochStats where
  start : Timestamp
  endTime : Timestamp
  totalFee : ℕ
  deriving DecidableEq, Repr

def pendingEpoch : ℕ := 4294967293

/-- `gossip.Service` with its store and the application, as far as epochs go. -/
structure Service where
  epochStats : ExtTreeMap ℕ EpochStats
  app : App

namespace Service

/-- The stores after both `ApplyGenesis`, and the application after `InitChain`. -/
def genesis (net : Net) : Service where
  epochStats :=
    ((∅ : ExtTreeMap ℕ EpochStats).insert 0 ⟨net.genesisTime, net.genesisTime, 0⟩).insert
      pendingEpoch ⟨net.genesisTime, 0, 0⟩
  app := ⟨some (0, net.genesisTime), 1⟩

/-- `Store.GetDirtyEpochStats`, of which a field is read. -/
def getDirtyEpochStats (s : Service) : Except Fault EpochStats :=
  match s.epochStats[pendingEpoch]? with
  | none => .error .nilDereference
  | some stats => .ok stats

def legacyShouldSealEpoch (net : Net) (s : Service) (block : Block) (decidedFrame : ℕ)
    (cheaters : List StakerID) : Except Fault Bool := do
  let epochStart := (← s.getDirtyEpochStats).start
  return net.maxEpochBlocks ≤ .ofNat decidedFrame ||
    net.maxEpochDuration.toUInt64 ≤ block.time - epochStart || 0 < cheaters.length

def updateEpochStats (s : Service) (epoch : ℕ) (block : Block) (blockFee : ℕ) (sealEpoch : Bool) :
    Except Fault Service := do
  let stats ← s.getDirtyEpochStats
  let stats := { stats with totalFee := stats.totalFee + blockFee }
  if sealEpoch then
    let epochStats := s.epochStats.insert epoch { stats with endTime := block.time }
    return { s with epochStats := epochStats.insert pendingEpoch ⟨block.time, 0, 0⟩ }
  else return { s with epochStats := s.epochStats.insert pendingEpoch stats }

/-- `Service.applyNewState`: whether the epoch is sealed. -/
def applyNewState (net : Net) (s : Service) (epoch : ℕ) (block : Block) (cheaters : List StakerID)
    (executed : Execution) : Except Fault (Bool × Service) := do
  let sealEpoch := App.deliverTxs net (s.app.shouldSealEpoch net block cheaters) executed
  let s ← s.updateEpochStats epoch block executed.totalFee sealEpoch
  return (sealEpoch, { s with app := s.app.endBlock sealEpoch block })

/-- `Service.applyBlock` in the epoch of the engine, with what the EVM returns for the block. -/
def applyBlock (net : Net) (s : Service) (epoch : ℕ) (block : Block) (decidedFrame : ℕ)
    (cheaters : List StakerID) (executed : Execution) : Except Fault (Bool × Service) := do
  let legacySealEpoch ← s.legacyShouldSealEpoch net block decidedFrame cheaters
  let (sealEpoch, s) ← s.applyNewState net epoch block cheaters executed
  if (legacySealEpoch || epochIsForceSealed net.asSigHash executed.receipts) ≠ sealEpoch then
    .error .panicked
  else return (sealEpoch, s)

end Service

/-! ### The counters in step -/

/-- What the consensus engine counts: its epoch, the frames decided in it and all blocks. -/
structure Engine where
  epochN : ℕ
  lastDecidedFrame : ℕ
  lastBlockN : ℕ
  deriving DecidableEq, Repr

namespace Engine

/-- The engine after the genesis. -/
def genesis : Engine := ⟨1, 0, 0⟩

/-- The engine after the next decided frame; `sealEpoch` begins to count frames again. -/
def next (e : Engine) (sealed : Bool) : Engine :=
  if sealed then ⟨e.epochN + 1, 0, e.lastBlockN + 1⟩
  else ⟨e.epochN, e.lastDecidedFrame + 1, e.lastBlockN + 1⟩

end Engine

/-- A run of blocks from the genesis, each with any time, cheaters and receipts. The block of a
decided frame is the next one, and the frame is the next one of its epoch. -/
inductive BlockRun (net : Net) : Engine → Service → Prop
  | genesis : BlockRun net .genesis (.genesis net)
  | apply {e : Engine} {s s' : Service} {block : Block} {cheaters : List StakerID}
      {executed : Execution} {sealed : Bool}
      (before : BlockRun net e s) (index : block.index = e.lastBlockN + 1)
      (applied : s.applyBlock net e.epochN block (e.lastDecidedFrame + 1) cheaters executed =
        .ok (sealed, s')) :
      BlockRun net (e.next sealed) s'

/-- The counters of the engine, the service and the application fit together. -/
structure InStep (net : Net) (e : Engine) (s : Service) : Prop where
  dirty : ∃ stats, s.getDirtyEpochStats = .ok stats ∧ stats.start = s.app.getLastVoting.2
  voting : ∃ startBlock, s.app.getLastVoting.1 = .ofNat startBlock ∧
    startBlock + e.lastDecidedFrame = e.lastBlockN
  /-- An epoch with as many frames as are allowed is over. -/
  frames : e.lastDecidedFrame = 0 ∨ e.lastDecidedFrame < net.maxEpochBlocks.toNat
  epoch : s.app.epoch = .ofNat e.epochN

namespace InStep

variable {net : Net} {e : Engine} {s : Service} {block : Block} {cheaters : List StakerID}

lemma genesis (net : Net) : InStep net .genesis (.genesis net) where
  dirty := ⟨⟨net.genesisTime, 0, 0⟩, by simp [Service.getDirtyEpochStats, Service.genesis], rfl⟩
  voting := ⟨0, rfl, rfl⟩
  frames := .inl rfl
  epoch := rfl

variable (h : InStep net e s) (hindex : block.index = e.lastBlockN + 1)
include h hindex

/-- The frames of an epoch are its blocks, and both are counted without an overflow. -/
lemma frames_eq_blocks :
    net.maxEpochBlocks ≤ .ofNat (e.lastDecidedFrame + 1) ↔
      net.maxEpochBlocks.toUInt64 ≤ .ofNat block.index - s.app.getLastVoting.1 := by
  obtain ⟨startBlock, hstart, hsum⟩ := h.voting
  have hdiff : UInt64.ofNat block.index - UInt64.ofNat startBlock =
      UInt64.ofNat (e.lastDecidedFrame + 1) := by
    rw [hindex, ← hsum, Nat.add_assoc, UInt64.ofNat_add, UInt64.add_comm, UInt64.add_sub_cancel]
  have hmax := net.maxEpochBlocks.toNat_lt
  have hframes := h.frames
  rw [hstart, hdiff, UInt32.le_iff_toNat_le, UInt64.le_iff_toNat_le,
    UInt32.toNat_ofNat_of_lt' (show _ < 2 ^ 32 by omega),
    UInt64.toNat_ofNat_of_lt' (show _ < 2 ^ 64 by omega), UInt32.toNat_toUInt64]

/-- The two rules agree. -/
lemma legacyShouldSealEpoch_eq :
    s.legacyShouldSealEpoch net block (e.lastDecidedFrame + 1) cheaters =
      .ok (s.app.shouldSealEpoch net block cheaters) := by
  obtain ⟨stats, hstats, hstart⟩ := h.dirty
  simp only [Service.legacyShouldSealEpoch, hstats, App.shouldSealEpoch, bind, Except.bind, pure,
    Except.pure, hstart, h.frames_eq_blocks hindex]

lemma shouldSealEpoch_iff :
    s.app.shouldSealEpoch net block cheaters = true ↔
      net.maxEpochBlocks.toNat ≤ e.lastDecidedFrame + 1 ∨
        net.maxEpochDuration.toUInt64 ≤ block.time - s.app.getLastVoting.2 ∨ cheaters ≠ [] := by
  have hcount : net.maxEpochBlocks ≤ .ofNat (e.lastDecidedFrame + 1) ↔
      net.maxEpochBlocks.toNat ≤ e.lastDecidedFrame + 1 := by
    have hmax := net.maxEpochBlocks.toNat_lt
    have hframes := h.frames
    rw [UInt32.le_iff_toNat_le, UInt32.toNat_ofNat_of_lt' (show _ < 2 ^ 32 by omega)]
  simp only [App.shouldSealEpoch, Bool.or_eq_true, decide_eq_true_eq, ← h.frames_eq_blocks hindex,
    hcount, List.length_pos_iff, or_assoc]

lemma lt_of_not_shouldSealEpoch (hgoing : s.app.shouldSealEpoch net block cheaters = false) :
    e.lastDecidedFrame + 1 < net.maxEpochBlocks.toNat := by
  by_contra hfull
  rw [(h.shouldSealEpoch_iff hindex).mpr (.inl (Nat.le_of_not_lt hfull))] at hgoing
  cases hgoing

/-- The service follows the engine, whether the epoch is sealed or not. -/
lemma applyBlock_ok (cheaters : List StakerID) (executed : Execution) :
    ∃ s', s.applyBlock net e.epochN block (e.lastDecidedFrame + 1) cheaters executed =
        .ok (App.deliverTxs net (s.app.shouldSealEpoch net block cheaters) executed, s') ∧
      InStep net (e.next (App.deliverTxs net (s.app.shouldSealEpoch net block cheaters) executed))
        s' := by
  obtain ⟨stats, hstats, hstart⟩ := h.dirty
  obtain ⟨startBlock, hblock, hsum⟩ := h.voting
  simp only [Service.applyBlock, h.legacyShouldSealEpoch_eq hindex, Service.applyNewState,
    Service.updateEpochStats, hstats, bind, Except.bind, pure, Except.pure]
  cases hseal : App.deliverTxs net (s.app.shouldSealEpoch net block cheaters) executed with
  | true =>
    have hseal' := hseal
    simp only [App.deliverTxs] at hseal'
    simp only [hseal', if_true, ne_eq, not_true_eq_false, if_false]
    refine ⟨_, rfl, ?_, ⟨e.lastBlockN + 1, ?_, rfl⟩, .inl rfl, ?_⟩
    · exact ⟨⟨block.time, 0, 0⟩, by simp [Service.getDirtyEpochStats], rfl⟩
    · rw [← hindex]
      rfl
    · simp [App.endBlock, Engine.next, h.epoch, UInt32.ofNat_add]
  | false =>
    have hseal' := hseal
    simp only [App.deliverTxs] at hseal'
    simp only [hseal', Bool.false_eq_true, ne_eq, not_true_eq_false, if_false]
    refine ⟨_, rfl, ?_, ⟨startBlock, hblock, ?_⟩, .inr ?_, h.epoch⟩
    · exact ⟨{ stats with totalFee := stats.totalFee + executed.totalFee },
        by simp [Service.getDirtyEpochStats], hstart⟩
    · simp only [Engine.next, Bool.false_eq_true, if_false]
      omega
    · exact h.lt_of_not_shouldSealEpoch hindex (Bool.or_eq_false_iff.mp hseal').1

end InStep

/-- The counters are in step after every run of blocks. -/
theorem BlockRun.inStep {net : Net} {e : Engine} {s : Service} (h : BlockRun net e s) :
    InStep net e s := by
  induction h with
  | genesis => exact .genesis net
  | apply _ index applied ih =>
    obtain ⟨s', happly, hstep⟩ := ih.applyBlock_ok index _ _
    rw [applied] at happly
    cases happly
    exact hstep

/-- Whatever block comes next in a run of blocks, the rule of the service and the rule of the
application give the same answer, and the block is applied without a panic. -/
theorem BlockRun.sealing_agrees {net : Net} {e : Engine} {s : Service} (h : BlockRun net e s)
    {block : Block} (hindex : block.index = e.lastBlockN + 1) (cheaters : List StakerID)
    (executed : Execution) :
    ∃ legacySealEpoch,
      s.legacyShouldSealEpoch net block (e.lastDecidedFrame + 1) cheaters = .ok legacySealEpoch ∧
      (legacySealEpoch || epochIsForceSealed net.asSigHash executed.receipts) =
        (s.app.shouldSealEpoch net block cheaters ||
          epochIsForceSealed net.asSigHash executed.receipts) ∧
      ∃ s', s.applyBlock net e.epochN block (e.lastDecidedFrame + 1) cheaters executed =
        .ok (s.app.shouldSealEpoch net block cheaters ||
          epochIsForceSealed net.asSigHash executed.receipts, s') := by
  obtain ⟨s', happly, -⟩ := h.inStep.applyBlock_ok hindex cheaters executed
  exact ⟨_, h.inStep.legacyShouldSealEpoch_eq hindex, rfl, s', happly⟩

/-- A network whose epochs have at most two frames. -/
def twoFrames : Net := ⟨2, 100, 5, HashBytes.zero⟩

def emptyBlock (index : ℕ) (time : Timestamp) : Block := ⟨index, time, 0, 0, []⟩

/-- The second block of `twoFrames` ends the first epoch by both rules. -/
theorem sealing_agrees_twoFrames : ∃ s, BlockRun twoFrames ⟨1, 1, 1⟩ s ∧
    s.app.shouldSealEpoch twoFrames (emptyBlock 2 8) [] = true ∧
    ∃ legacySealEpoch,
      s.legacyShouldSealEpoch twoFrames (emptyBlock 2 8) 2 [] = .ok legacySealEpoch ∧
      (legacySealEpoch || epochIsForceSealed HashBytes.zero []) =
        (s.app.shouldSealEpoch twoFrames (emptyBlock 2 8) [] ||
          epochIsForceSealed HashBytes.zero []) ∧
      ∃ s', s.applyBlock twoFrames 1 (emptyBlock 2 8) 2 [] ⟨[], 3, 0⟩ =
        .ok (s.app.shouldSealEpoch twoFrames (emptyBlock 2 8) [] ||
          epochIsForceSealed HashBytes.zero [], s') := by
  have hfirst : ((Service.genesis twoFrames).applyBlock twoFrames 1 (emptyBlock 1 7) 1 []
      ⟨[], 4, 0⟩).map (fun r => (r.1, r.2.app.shouldSealEpoch twoFrames (emptyBlock 2 8) [])) =
        .ok (false, true) := by decide +kernel
  obtain ⟨⟨sealed, s⟩, hs, hpair⟩ := map_eq_ok_iff.mp hfirst
  obtain ⟨rfl, hseal⟩ := Prod.mk.inj hpair
  have hrun : BlockRun twoFrames ⟨1, 1, 1⟩ s := .apply .genesis rfl hs
  exact ⟨s, hrun, hseal,
    hrun.sealing_agrees (show (emptyBlock 2 8).index = _ from rfl) [] ⟨[], 3, 0⟩⟩

/-! ### The service behind the engine's callbacks -/

/-- The counters of a chain. -/
def Chain.engine (c : Chain) : Engine :=
  ⟨c.epochState.epochN, c.checkpoint.lastDecidedFrame, c.checkpoint.lastBlockN⟩

/-- The epoch of the engine, as its calls tell it: the service selects the validators of each. -/
def engineEpoch (calls : List Call) : ℕ :=
  calls.foldl (fun epoch call => match call with
    | .selectValidatorsGroup _ newEpoch => newEpoch
    | _ => epoch) 1

lemma engineEpoch_concat (calls : List Call) (call : Call) : engineEpoch (calls ++ [call]) =
    match call with
    | .selectValidatorsGroup _ newEpoch => newEpoch
    | _ => engineEpoch calls := by
  rw [engineEpoch, List.foldl_append]
  cases call <;> rfl

namespace Service

/-- A call of the service after the calls that are kept with it. What the EVM returns for a block
may depend on all of them. -/
def onCall (net : Net) (process : List Call → Block → Execution) (t : List Call × Service)
    (call : Call) : Except Fault (List Call × Service) :=
  match call with
  | .applyBlock block decidedFrame cheaters =>
    (t.2.applyBlock net (engineEpoch t.1) block decidedFrame cheaters (process t.1 block)).map
      fun r => (t.1 ++ [call], r.2)
  | _ => .ok (t.1 ++ [call], t.2)

/-- The service after the calls, from the genesis. -/
def after (net : Net) (process : List Call → Block → Execution) (calls : List Call) :
    Except Fault (List Call × Service) :=
  calls.foldlM (onCall net process) ([], genesis net)

/-- The answer of the service to a call of `ApplyBlock`. -/
def answer (net : Net) (process : List Call → Block → Execution) (calls : List Call)
    (block : Block) (decidedFrame : ℕ) (cheaters : List StakerID) : Except Fault (Hash × Bool) := do
  let (_, s) ← after net process calls
  let executed := process calls block
  let (sealEpoch, _) ←
    s.applyBlock net (engineEpoch calls) block decidedFrame cheaters executed
  return (executed.txHash, sealEpoch)

/-- The callbacks are those of the service. -/
structure Serves (net : Net) (process : List Call → Block → Execution)
    (callback : ConsensusCallbacks) : Prop where
  applyBlock : ∃ apply, callback.applyBlock = some apply ∧
    ∀ calls block decidedFrame cheaters r,
      answer net process calls block decidedFrame cheaters = .ok r →
        apply calls block decidedFrame cheaters = r
  selectValidatorsGroup : callback.selectValidatorsGroup.isSome

end Service

/-- What the reports of confirmed events keep holds of the calls after a block is confirmed. -/
lemma Chain.confirmBlock_calls {I : List Call → Prop}
    (hconfirmed : ∀ calls e seqDepth, I calls → I (calls ++ [.onEventConfirmed e seqDepth]))
    (hallowed : ∀ calls e seqDepth, I calls → I (calls ++ [.isEventAllowedIntoBlock e seqDepth]))
    {cfg : Config} {fuel f : ℕ} {highest : ℕ → BranchSeq} {a : EventID} {c : Chain}
    {r : Block × List StakerID × Chain} (hrun : c.confirmBlock cfg fuel highest f a = .ok r)
    (h : I c.calls) : I r.2.2.calls ∧ r.1.index = c.checkpoint.lastBlockN + 1 := by
  have hreport : ∀ {V : Validators} {e : Event} {t t' : Confirming},
      onConfirmed cfg V highest e t = .ok t' → I t.calls → I t'.calls := by
    intro V e t t' hrun ht
    unfold onConfirmed at hrun
    dsimp only at hrun
    split at hrun
    · cases hrun
    · cases hrun
      have hasked : ∀ seqDepth, I (cfg.isEventAllowedIntoBlock t.calls e seqDepth).2 := by
        intro seqDepth
        unfold Config.isEventAllowedIntoBlock
        split
        · exact ht
        · exact hallowed _ _ _ ht
      dsimp only
      unfold Config.onEventConfirmed
      split
      · exact hconfirmed _ _ _ (hasked _)
      · exact hasked _
  simp only [confirmBlock, bind, bind_eq_ok_iff] at hrun
  obtain ⟨⟨marks, confirming⟩, hwalk, time, -, hrun⟩ := hrun
  split at hrun
  · cases hrun
  · cases hrun
    refine ⟨?_, rfl⟩
    refine walk_keeps (I := fun t : Marks × Confirming => I t.2.calls) ?_ hwalk h
    intro t x t' push ht hvisit
    unfold dfsStep at hvisit
    split at hvisit
    · cases hvisit
    · rename_i event _
      unfold confirmEvent at hvisit
      split_ifs at hvisit
      · cases hvisit
        exact ht
      · cases hconfirm : onConfirmed cfg c.epochState.validators highest event t.2 with
        | error => simp [hconfirm, Except.map] at hvisit
        | ok confirming' =>
          simp only [hconfirm, Except.map] at hvisit
          cases hvisit
          exact hreport hconfirm ht

/-- The service is in the state `s` after the calls, and the engine in the epoch `n`. -/
structure Follows (net : Net) (process : List Call → Block → Execution) (n : ℕ) (s : Service)
    (calls : List Call) : Prop where
  after : Service.after net process calls = .ok (calls, s)
  epoch : engineEpoch calls = n

namespace Follows

variable {net : Net} {process : List Call → Block → Execution} {n : ℕ} {s : Service}
variable {calls : List Call} {cfg : Config}

lemma concat {s' : Service} (h : Follows net process n s calls) (call : Call)
    (hcall : Service.onCall net process (calls, s) call = .ok (calls ++ [call], s')) :
    Follows net process (engineEpoch (calls ++ [call])) s' (calls ++ [call]) := by
  refine ⟨?_, rfl⟩
  rw [Service.after, List.foldlM_append, ← Service.after, h.after]
  simp [bind, Except.bind, hcall, pure, Except.pure]

/-- Confirming a block leaves the service as it is. -/
lemma confirmBlock {fuel f : ℕ} {highest : ℕ → BranchSeq} {a : EventID} {c : Chain}
    {r : Block × List StakerID × Chain} (hrun : c.confirmBlock cfg fuel highest f a = .ok r)
    (h : Follows net process n s c.calls) :
    Follows net process n s r.2.2.calls ∧ r.1.index = c.checkpoint.lastBlockN + 1 := by
  refine Chain.confirmBlock_calls (I := Follows net process n s) ?_ ?_ hrun h
  · intro calls e seqDepth h
    simpa only [engineEpoch_concat, h.epoch] using h.concat (.onEventConfirmed e seqDepth) rfl
  · intro calls e seqDepth h
    simpa only [engineEpoch_concat, h.epoch] using
      h.concat (.isEventAllowedIntoBlock e seqDepth) rfl

lemma applyBlock {block : Block} {frame : ℕ} {cheaters : List StakerID} {sealed : Bool}
    {s' : Service} (h : Follows net process n s calls)
    (happly : s.applyBlock net n block frame cheaters (process calls block) = .ok (sealed, s')) :
    Follows net process n s' (calls ++ [.applyBlock block frame cheaters]) := by
  have hcall : Follows net process _ s' _ := h.concat (.applyBlock block frame cheaters) (by
    simp only [Service.onCall, h.epoch, happly, Except.map])
  simpa only [engineEpoch_concat, h.epoch] using hcall

lemma selectValidatorsGroup (h : Follows net process n s calls) :
    Follows net process (n + 1) s (calls ++ [.selectValidatorsGroup n (n + 1)]) := by
  simpa only [engineEpoch_concat] using h.concat (.selectValidatorsGroup n (n + 1)) rfl

lemma answer_eq {block : Block} {frame : ℕ} {cheaters : List StakerID} {sealed : Bool}
    {s' : Service} (h : Follows net process n s calls)
    (happly : s.applyBlock net n block frame cheaters (process calls block) = .ok (sealed, s')) :
    Service.answer net process calls block frame cheaters =
      .ok ((process calls block).txHash, sealed) := by
  simp only [Service.answer, h.after, h.epoch, happly, bind, Except.bind, pure, Except.pure]

lemma sealEpoch (hserves : Service.Serves net process cfg.callback) {c c' : Chain}
    (h : Follows net process c.epochState.epochN s c.calls) (hseal : c.sealEpoch cfg = .ok c') :
    Follows net process c'.epochState.epochN s c'.calls ∧ c.calls <+: c'.calls ∧
      c'.engine = ⟨c.epochState.epochN + 1, 0, c.checkpoint.lastBlockN⟩ := by
  obtain ⟨select, hselect⟩ := Option.isSome_iff_exists.mp hserves.selectValidatorsGroup
  simp only [Chain.sealEpoch, bind, bind_eq_ok_iff, Chain.nextValidators, hselect] at hseal
  obtain ⟨time, -, hseal⟩ := hseal
  cases hseal
  exact ⟨h.selectValidatorsGroup, ⟨_, rfl⟩, rfl⟩

lemma finishFrame (hserves : Service.Serves net process cfg.callback) {c c' : Chain} {e : Engine}
    {a : EventID} {block : Block} {cheaters : List StakerID} {sealed : Bool}
    (hengine : c.engine = { e with lastDecidedFrame := e.lastDecidedFrame + 1 })
    (hindex : block.index = e.lastBlockN + 1) (hrun : BlockRun net e s)
    (h : Follows net process e.epochN s c.calls)
    (hfinish : c.finishFrame cfg (e.lastDecidedFrame + 1) a block cheaters = .ok (sealed, c')) :
    (∃ s', Follows net process c'.epochState.epochN s' c'.calls ∧ BlockRun net c'.engine s') ∧
      c.calls ++ [.applyBlock block (e.lastDecidedFrame + 1) cheaters] <+: c'.calls ∧
      sealed = App.deliverTxs net (s.app.shouldSealEpoch net block cheaters)
        (process c.calls block) := by
  obtain ⟨s', happly, -⟩ := hrun.inStep.applyBlock_ok hindex cheaters (process c.calls block)
  obtain ⟨apply, hcallback, hanswer⟩ := hserves.applyBlock
  have hreturns := hanswer _ _ _ _ _ (h.answer_eq happly)
  have hnext := BlockRun.apply hrun hindex happly
  have hfollows := h.applyBlock happly
  obtain ⟨hepochN, hframe, hblockN⟩ := Engine.mk.inj hengine
  simp only [Chain.finishFrame, Chain.applyBlock, hcallback, hreturns] at hfinish
  generalize App.deliverTxs net _ _ = sealEpoch at hfinish hnext
  cases sealEpoch with
  | false =>
    cases hfinish
    refine ⟨⟨s', by simpa only [Chain.saveCheckpoint, hepochN] using hfollows, ?_⟩,
      ⟨[], List.append_nil _⟩, rfl⟩
    simpa only [Engine.next, Bool.false_eq_true, if_false, Chain.engine, Chain.saveCheckpoint,
      hepochN, hframe, hblockN] using hnext
  | true =>
    obtain ⟨c₁, hseal, hpair⟩ := map_eq_ok_iff.mp hfinish
    cases hpair
    obtain ⟨hfollows', hcalls, hengine'⟩ := Follows.sealEpoch hserves (hepochN ▸ hfollows) hseal
    refine ⟨⟨s', hfollows', ?_⟩, hcalls, rfl⟩
    simpa only [Engine.next, if_true, hengine', Chain.saveCheckpoint, hepochN, hblockN] using hnext

end Follows

/-- Every frame that the engine decides is a block of the service's run. -/
theorem Chain.Run.blockRun {net : Net} {process : List Call → Block → Execution} {cfg : Config}
    (hserves : Service.Serves net process cfg.callback) {V : Validators} {time : Timestamp}
    {genesisAtropos : EventID} {appHash : Hash} {c : Chain}
    (h : Chain.Run cfg (.genesis V time genesisAtropos appHash []) c) :
    ∃ s, Follows net process c.epochState.epochN s c.calls ∧ BlockRun net c.engine s := by
  induction h with
  | start => exact ⟨.genesis net, ⟨rfl, rfl⟩, .genesis⟩
  | @next c c' fuel highest atropos sealed before decided ih =>
    obtain ⟨s, hfollows, hrun⟩ := ih
    unfold Chain.onFrameDecided at decided
    split at decided
    · cases decided
    rename_i block cheaters c₁ hconfirm
    obtain ⟨hfollows₁, hindex⟩ := Follows.confirmBlock hconfirm hfollows
    obtain ⟨hcheckpoint, hes, -⟩ := Chain.confirmBlock_keeps hconfirm
    refine (Follows.finishFrame hserves ?_ hindex hrun hfollows₁ decided).1
    rw [Chain.engine, hes, hcheckpoint]
    rfl

/-! ### The order of the calls -/

namespace Engine

/-- The calls that the engine may make: blocks are numbered without gaps, and so are the frames of
an epoch. An epoch with a frame at least is followed by the next one. -/
def onCall (e : Engine) : Call → Option Engine
  | .applyBlock block decidedFrame _ =>
    if block.index = e.lastBlockN + 1 ∧ decidedFrame = e.lastDecidedFrame + 1 then
      some ⟨e.epochN, decidedFrame, block.index⟩
    else none
  | .selectValidatorsGroup oldEpoch newEpoch =>
    if oldEpoch = e.epochN ∧ newEpoch = oldEpoch + 1 ∧ e.lastDecidedFrame ≠ 0 then
      some ⟨newEpoch, 0, e.lastBlockN⟩
    else none
  | _ => some e

/-- What the calls tell of the engine, if it may make them. -/
def after (calls : List Call) : Option Engine := calls.foldlM onCall genesis

lemma after_concat {calls : List Call} {e : Engine} (h : after calls = some e) (call : Call) :
    after (calls ++ [call]) = e.onCall call := by
  rw [after, List.foldlM_append]
  change (after calls >>= fun e => [call].foldlM onCall e) = _
  simp [h]

end Engine

/-- Every run of decided frames makes calls in order, and they tell where the engine is. -/
theorem Chain.Run.calls_inOrder {cfg : Config} (happly : cfg.callback.applyBlock.isSome)
    (hselect : cfg.callback.selectValidatorsGroup.isSome) {V : Validators} {time : Timestamp}
    {genesisAtropos : EventID} {appHash : Hash} {c : Chain}
    (h : Chain.Run cfg (.genesis V time genesisAtropos appHash []) c) :
    Engine.after c.calls = some c.engine := by
  obtain ⟨apply, happly⟩ := Option.isSome_iff_exists.mp happly
  obtain ⟨select, hselect⟩ := Option.isSome_iff_exists.mp hselect
  induction h with
  | start => rfl
  | @next c c' fuel highest atropos sealed before decided ih =>
    unfold Chain.onFrameDecided at decided
    split at decided
    · cases decided
    rename_i block cheaters c₁ hconfirm
    obtain ⟨hcalls, hindex⟩ := Chain.confirmBlock_calls
      (I := fun calls => Engine.after calls = some c.engine)
      (fun _ e seqDepth h => Engine.after_concat h (.onEventConfirmed e seqDepth))
      (fun _ e seqDepth h => Engine.after_concat h (.isEventAllowedIntoBlock e seqDepth))
      hconfirm ih
    obtain ⟨hcheckpoint, hes, -⟩ := Chain.confirmBlock_keeps hconfirm
    dsimp only at hcalls hindex hcheckpoint hes
    have hblock := Engine.after_concat hcalls
      (.applyBlock block (c.checkpoint.lastDecidedFrame + 1) cheaters)
    rw [Engine.onCall, if_pos ⟨hindex, rfl⟩] at hblock
    simp only [Chain.finishFrame, Chain.applyBlock, happly] at decided
    split at decided
    · obtain ⟨c₂, hseal, hpair⟩ := map_eq_ok_iff.mp decided
      cases hpair
      simp only [Chain.sealEpoch, bind, bind_eq_ok_iff, Chain.nextValidators, hselect] at hseal
      obtain ⟨time, -, hseal⟩ := hseal
      cases hseal
      apply (Engine.after_concat hblock _).trans
      simp [Engine.onCall, Chain.saveCheckpoint, Chain.engine, hes, hcheckpoint, hindex]
    · cases decided
      apply hblock.trans
      simp [Chain.saveCheckpoint, Chain.engine, hes, hcheckpoint, hindex]

end Lachesis
