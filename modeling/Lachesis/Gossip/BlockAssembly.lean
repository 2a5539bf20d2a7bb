import Lachesis.Poset.Store

/-!
# Assembling a block

The service turns the block of a decided frame into the list of transactions that the EVM executes.
`spillBlockEvents` goes through the events of the block from the last one backwards and drops the
first ones as soon as the gas limit of a block is exceeded. `assembleEvmBlock` collects the
transactions, and `applyNewState` notes where each transaction was met first.

The loop of `assembleEvmBlock` appends to the list of events it has begun to go through, so it
returns the kept events twice. The positions do not suffer from it.
-/

namespace Lachesis

open Lachesis.Core Std

/-- `types.Transaction`, as far as a block uses it. -/
structure Tx where
  hash : Hash
  gas : UInt64
  deriving DecidableEq, Repr

/-- `inter.Event`, as far as a block uses it. -/
structure BlockEvent where
  hash : EventID
  creator : StakerID
  gasPowerUsed : UInt64
  transactions : List Tx
  deriving DecidableEq, Repr

/-- `inter.Block` with the transactions that were skipped when it was executed. -/
structure ExecBlock extends Block where
  skippedTxs : List ℕ
  deriving DecidableEq, Repr

/-- `inter.NewBlock` -/
def ExecBlock.new (block : Block) : ExecBlock := { block with skippedTxs := [] }

/-- `app.TxPosition` -/
structure TxPosition where
  event : EventID
  creator : StakerID
  eventOffset : UInt32
  block : ℕ
  blockOffset : UInt32
  deriving DecidableEq, Repr

namespace BlockAssembly

section Model

variable (getEvent : EventID → Option BlockEvent) (blockGasHardLimit : UInt64)

/-- The loop of `spillBlockEvents` from index `i` down. Events that were not reached are `none`. -/
def spillFrom (events : List EventID) : (i : ℕ) → List (Option BlockEvent) →
    (gasPowerUsedSum : UInt64) → Except Fault (List EventID × List (Option BlockEvent))
  | i, fullEvents, gasPowerUsedSum =>
    match events[i]? with
    | none => .error .indexOutOfRange
    | some id =>
      match getEvent id with
      | none => .error (.crit .eventNotFound)
      | some e =>
        let fullEvents := fullEvents.set i (some e)
        let gasPowerUsedSum := gasPowerUsedSum + e.gasPowerUsed
        if blockGasHardLimit < gasPowerUsedSum then
          .ok (events.drop (i + 1), fullEvents.drop (i + 1))
        else
          match i with
          | 0 => .ok (events, fullEvents)
          | i + 1 => spillFrom events i fullEvents gasPowerUsedSum

/-- `Service.spillBlockEvents` -/
def spillBlockEvents (block : ExecBlock) : Except Fault (ExecBlock × List (Option BlockEvent)) :=
  let fullEvents := List.replicate block.events.length none
  if block.events.length = 0 then .ok (block, fullEvents)
  else do
    let (events, fullEvents) ←
      spillFrom getEvent blockGasHardLimit block.events (block.events.length - 1) fullEvents 0
    return ({ block with events }, fullEvents)

/-- The fields of an event are read through its pointer. -/
def deref (e : Option BlockEvent) : Except Fault BlockEvent :=
  match e with
  | none => .error .nilDereference
  | some e => .ok e

/-- `Service.assembleEvmBlock`: the block, its transactions and its events. The range of the loop is
the list as it was before the loop. -/
def assembleEvmBlock (block : ExecBlock) : Except Fault (ExecBlock × List Tx × List BlockEvent) := do
  if block.skippedTxs.length ≠ 0 then throw (.crit .buildingWithSkippedTxs)
  let (block, fullEvents) ← spillBlockEvents getEvent blockGasHardLimit block
  let blockEvents ← fullEvents.mapM deref
  let (transactions, blockEvents) := blockEvents.foldl
    (fun (transactions, blockEvents) e => (transactions ++ e.transactions, blockEvents ++ [e]))
    ([], blockEvents)
  return (block, transactions, blockEvents)

end Model

/-- The positions that `applyNewState` notes for the transactions of one event. -/
def addPositions (txPositions : ExtTreeMap Hash TxPosition) (e : BlockEvent) :
    ExtTreeMap Hash TxPosition :=
  e.transactions.zipIdx.foldl (fun txPositions (tx, i) =>
    if txPositions.contains tx.hash then txPositions
    else txPositions.insert tx.hash ⟨e.hash, e.creator, .ofNat i, 0, 0⟩) txPositions

/-- `txPositions` of `applyNewState` before the transactions are executed. -/
def txPositions (blockEvents : List BlockEvent) : ExtTreeMap Hash TxPosition :=
  blockEvents.foldl addPositions ∅

/-! ### The kept events -/

/-- The sum of the gas of some events, as `uint64` adds it up. -/
def gasSum (es : List BlockEvent) : UInt64 := (es.map (·.gasPowerUsed)).sum

/-- The gas that some events use. -/
def gasPower (es : List BlockEvent) : ℕ := (es.map (·.gasPowerUsed.toNat)).sum

@[simp] lemma gasSum_cons (e : BlockEvent) (es : List BlockEvent) :
    gasSum (e :: es) = e.gasPowerUsed + gasSum es := rfl

@[simp] lemma gasPower_cons (e : BlockEvent) (es : List BlockEvent) :
    gasPower (e :: es) = e.gasPowerUsed.toNat + gasPower es := rfl

/-- The events from number `n` on are the longest suffix within the limit. -/
structure LongestFitting (limit : UInt64) (es : List BlockEvent) (n : ℕ) : Prop where
  fits : gasPower (es.drop n) ≤ limit.toNat
  longest : ∀ m < n, limit.toNat < gasPower (es.drop m)

/-- Where the loop stops: the sums it has seen are within the limit, the next one is not. -/
structure StopsAt (limit : UInt64) (es : List BlockEvent) (i n : ℕ) : Prop where
  le : n ≤ i
  within : ∀ j, n ≤ j → j < i → gasSum (es.drop j) ≤ limit
  exceeded : ∀ m, n = m + 1 → limit < gasSum (es.drop m)

section Spill

variable {getEvent : EventID → Option BlockEvent} {limit : UInt64}
variable {events : List EventID} {es : List BlockEvent}

lemma getEvent_eq (hes : events.map getEvent = es.map some) {i : ℕ} (hi : i < events.length) :
    ∃ id e, events[i]? = some id ∧ getEvent id = some e ∧ es.drop i = e :: es.drop (i + 1) := by
  have hlen : events.length = es.length := by simpa using congrArg List.length hes
  have hget := congrArg (·[i]?) hes
  simp only [List.getElem?_map, List.getElem?_eq_getElem hi,
    List.getElem?_eq_getElem (hlen ▸ hi : i < es.length), Option.map_some] at hget
  exact ⟨events[i], es[i], List.getElem?_eq_getElem hi, Option.some.inj hget,
    List.drop_eq_getElem_cons (hlen ▸ hi)⟩

/-- The loop fills the array from its end and cuts both lists at the same place. -/
lemma spillFrom_ok (limit : UInt64) (hes : events.map getEvent = es.map some) {i : ℕ}
    (hi : i < events.length) {fullEvents : List (Option BlockEvent)}
    (hlen : fullEvents.length = events.length)
    (hfull : fullEvents.drop (i + 1) = (es.drop (i + 1)).map some) :
    ∃ n, spillFrom getEvent limit events i fullEvents (gasSum (es.drop (i + 1))) =
        .ok (events.drop n, (es.drop n).map some) ∧ StopsAt limit es (i + 1) n := by
  induction i generalizing fullEvents with
  | zero =>
    obtain ⟨id, e, hid, he, hdrop⟩ := getEvent_eq hes hi
    have hset : fullEvents.set 0 (some e) = es.map some := by
      cases fullEvents with
      | nil => exact absurd (hlen.symm ▸ hi : 0 < [].length) (Nat.not_lt_zero 0)
      | cons x rest =>
        rw [List.drop_zero] at hdrop
        rw [hdrop, List.map_cons, List.set_cons_zero]
        exact congrArg (some e :: ·) (by simpa using hfull)
    rw [spillFrom, hid]
    simp only [he]
    rw [UInt64.add_comm, ← gasSum_cons, ← hdrop]
    split_ifs with hlimit
    · refine ⟨1, ?_, le_rfl, fun j hj hj' => absurd hj' (by omega), ?_⟩
      · rw [hset, List.map_drop]
      · rintro m hm
        obtain rfl : m = 0 := by omega
        exact hlimit
    · refine ⟨0, ?_, Nat.zero_le _, fun j _ hj => ?_, fun m hm => by omega⟩
      · rw [hset]
        rfl
      · obtain rfl : j = 0 := by omega
        exact UInt64.not_lt.mp hlimit
  | succ i ih =>
    obtain ⟨id, e, hid, he, hdrop⟩ := getEvent_eq hes hi
    have hset : (fullEvents.set (i + 1) (some e)).drop (i + 1) = (es.drop (i + 1)).map some := by
      rw [hdrop, List.map_cons, ← hfull, List.drop_set, if_neg (lt_irrefl _), Nat.sub_self,
        List.drop_eq_getElem_cons (hlen ▸ hi : i + 1 < fullEvents.length), List.set_cons_zero]
    rw [spillFrom, hid]
    simp only [he]
    rw [UInt64.add_comm, ← gasSum_cons, ← hdrop]
    split_ifs with hlimit
    · refine ⟨i + 2, ?_, le_rfl, fun j hj hj' => absurd hj' (by omega), ?_⟩
      · rw [List.drop_set_of_lt (by omega), hfull]
      · rintro m hm
        obtain rfl : m = i + 1 := by omega
        exact hlimit
    · obtain ⟨n, hrun, hstop⟩ := ih (by omega) (by rw [List.length_set, hlen]) hset
      refine ⟨n, hrun, by have := hstop.le; omega, fun j hj hj' => ?_, hstop.exceeded⟩
      rcases Nat.lt_succ_iff_lt_or_eq.mp hj' with hlt | rfl
      · exact hstop.within j hj hlt
      · exact UInt64.not_lt.mp hlimit

/-- The events that do not fit are spilled from the front. -/
lemma spillBlockEvents_ok (block : ExecBlock) (hes : block.events.map getEvent = es.map some) :
    ∃ n, spillBlockEvents getEvent limit block =
        .ok ({ block with events := block.events.drop n }, (es.drop n).map some) ∧
      StopsAt limit es es.length n := by
  have hlen : block.events.length = es.length := by simpa using congrArg List.length hes
  rw [spillBlockEvents]
  split_ifs with hempty
  · have hes' : es = [] := List.length_eq_zero_iff.mp (hlen ▸ hempty)
    refine ⟨0, ?_, Nat.zero_le _, fun j _ hj => ?_, fun m hm => by omega⟩
    · rw [hempty, hes', List.drop_zero]
      rfl
    · rw [hes'] at hj
      cases hj
  · have hlast : block.events.length - 1 + 1 = es.length := by omega
    have hfull : (List.replicate block.events.length (none : Option BlockEvent)).drop
        (block.events.length - 1 + 1) = (es.drop (block.events.length - 1 + 1)).map some := by
      rw [hlast, List.drop_length, List.drop_replicate, hlen, Nat.sub_self]
      rfl
    obtain ⟨n, hrun, hstop⟩ := spillFrom_ok limit hes
      (show block.events.length - 1 < block.events.length by omega) List.length_replicate hfull
    rw [hlast, List.drop_length] at hrun
    refine ⟨n, ?_, hlast ▸ hstop⟩
    rw [show (0 : UInt64) = gasSum [] from rfl, hrun]
    rfl

lemma gasPower_drop_anti {m n : ℕ} (h : m ≤ n) : gasPower (es.drop n) ≤ gasPower (es.drop m) := by
  obtain ⟨k, rfl⟩ := Nat.exists_eq_add_of_le h
  rw [← List.drop_drop]
  exact ((List.drop_sublist k (es.drop m)).map _).sum_le_sum fun _ _ => Nat.zero_le _

lemma StopsAt.eq_length_iff {n : ℕ} (h : StopsAt limit es es.length n) :
    n = es.length ↔ ∀ e ∈ es.getLast?, limit < e.gasPowerUsed := by
  cases es using List.reverseRecOn with
  | nil => simpa using h.le
  | append_singleton es e =>
    have hdrop : gasSum ((es ++ [e]).drop es.length) = e.gasPowerUsed := by
      rw [List.drop_left]
      exact UInt64.add_zero _
    simp only [List.length_append, List.length_singleton, List.getLast?_concat, Option.mem_def,
      Option.some.injEq, forall_eq'] at h ⊢
    constructor
    · rintro rfl
      exact hdrop ▸ h.exceeded es.length rfl
    · intro hlt
      by_contra hne
      have hle := h.within es.length (by have := h.le; omega) (by omega)
      exact absurd hlt (UInt64.not_lt.mpr (hdrop ▸ hle))

lemma longestFitting_length (h : ∀ e ∈ es.getLast?, limit < e.gasPowerUsed) :
    LongestFitting limit es es.length := by
  cases es using List.reverseRecOn with
  | nil => exact ⟨Nat.zero_le _, fun m hm => absurd hm (Nat.not_lt_zero m)⟩
  | append_singleton es e =>
    refine ⟨by rw [List.drop_length]; exact Nat.zero_le _, fun m hm => ?_⟩
    rw [List.length_append, List.length_singleton, Nat.lt_succ_iff] at hm
    calc limit.toNat < e.gasPowerUsed.toNat := UInt64.lt_iff_toNat_lt.mp (h e (by simp))
      _ = gasPower ((es ++ [e]).drop es.length) := by rw [List.drop_left]; rfl
      _ ≤ gasPower ((es ++ [e]).drop m) := gasPower_drop_anti hm

lemma StopsAt.longestFitting {n : ℕ} (h : StopsAt limit es es.length n)
    (hsmall : ∀ e ∈ es, limit.toNat + e.gasPowerUsed.toNat < 2 ^ 64) :
    LongestFitting limit es n := by
  -- the sum of one event more than a kept part is not wrapped
  have hnext : ∀ j < es.length, gasPower (es.drop (j + 1)) ≤ limit.toNat →
      (gasSum (es.drop (j + 1))).toNat = gasPower (es.drop (j + 1)) →
        (gasSum (es.drop j)).toNat = gasPower (es.drop j) := by
    intro j hj hfits heq
    have hg := hsmall es[j] (List.getElem_mem hj)
    rw [List.drop_eq_getElem_cons hj, gasSum_cons, gasPower_cons, UInt64.toNat_add, heq]
    exact Nat.mod_eq_of_lt (by omega)
  have hkept : ∀ k j, j + k = es.length → n ≤ j →
      (gasSum (es.drop j)).toNat = gasPower (es.drop j) ∧ gasPower (es.drop j) ≤ limit.toNat := by
    intro k
    induction k with
    | zero =>
      rintro j rfl -
      rw [List.drop_length]
      exact ⟨rfl, Nat.zero_le _⟩
    | succ k ih =>
      intro j hj hn
      obtain ⟨heq, hfits⟩ := ih (j + 1) (by omega) (by omega)
      have hsum := hnext j (by omega) hfits heq
      exact ⟨hsum, hsum ▸ UInt64.le_iff_toNat_le.mp (h.within j hn (by omega))⟩
  obtain ⟨heq, hfits⟩ := hkept (es.length - n) n (by have := h.le; omega) le_rfl
  refine ⟨hfits, fun m hm => ?_⟩
  obtain ⟨p, rfl⟩ : ∃ p, n = p + 1 := ⟨n - 1, by omega⟩
  calc limit.toNat < (gasSum (es.drop p)).toNat := UInt64.lt_iff_toNat_lt.mp (h.exceeded p rfl)
    _ = gasPower (es.drop p) := hnext p (by have := h.le; omega) hfits heq
    _ ≤ gasPower (es.drop m) := gasPower_drop_anti (by omega)

end Spill

/-! ### The assembled block -/

section Assembly

variable {getEvent : EventID → Option BlockEvent} {limit : UInt64}
variable {block : Block} {es : List BlockEvent}

lemma foldl_append (es blockEvents : List BlockEvent) (transactions : List Tx) :
    es.foldl (fun (r : List Tx × List BlockEvent) e => (r.1 ++ e.transactions, r.2 ++ [e]))
        (transactions, blockEvents) =
      (transactions ++ es.flatMap (·.transactions), blockEvents ++ es) := by
  induction es generalizing transactions blockEvents with
  | nil => simp
  | cons e es ih => rw [List.foldl_cons, ih]; simp

/-- The transactions are those of the kept events, which are returned twice. -/
theorem assembleEvmBlock_ok (limit : UInt64) (hes : block.events.map getEvent = es.map some) :
    ∃ n, StopsAt limit es es.length n ∧
      spillBlockEvents getEvent limit (.new block) =
        .ok ({ ExecBlock.new block with events := block.events.drop n }, (es.drop n).map some) ∧
      assembleEvmBlock getEvent limit (.new block) =
        .ok ({ ExecBlock.new block with events := block.events.drop n },
          (es.drop n).flatMap (·.transactions), es.drop n ++ es.drop n) := by
  obtain ⟨n, hrun, hstop⟩ := spillBlockEvents_ok (.new block) hes
  have hderef : ((es.drop n).map some).mapM deref = .ok (es.drop n) := by
    rw [mapM_eq_ok_iff, List.map_map]
    rfl
  refine ⟨n, hstop, hrun, ?_⟩
  simp only [assembleEvmBlock, ExecBlock.new, List.length_nil, ne_eq, not_true_eq_false, if_false]
  rw [ExecBlock.new] at hrun
  simp only [hrun, hderef, bind, Except.bind, pure, Except.pure, foldl_append, List.nil_append]

end Assembly

/-! ### The positions of the transactions -/

/-- Where a transaction is first met. -/
def firstPosition (blockEvents : List BlockEvent) (h : Hash) : Option TxPosition :=
  blockEvents.findSome? fun e => (e.transactions.findIdx? (·.hash = h)).map fun i =>
    ⟨e.hash, e.creator, .ofNat i, 0, 0⟩

/-- The first of equal transactions has the position. -/
lemma getElem?_foldl_positions (e : BlockEvent) (h : Hash) (txs : List Tx) (k : ℕ)
    (m : ExtTreeMap Hash TxPosition) :
    ((txs.zipIdx k).foldl (fun (m : ExtTreeMap Hash TxPosition) (p : Tx × ℕ) =>
        if m.contains p.1.hash then m
        else m.insert p.1.hash ⟨e.hash, e.creator, .ofNat p.2, 0, 0⟩) m)[h]? =
      m[h]?.or ((txs.findIdx? (·.hash = h)).map fun i =>
        (⟨e.hash, e.creator, .ofNat (k + i), 0, 0⟩ : TxPosition)) := by
  induction txs generalizing k m with
  | nil => simp
  | cons tx txs ih =>
    rw [List.zipIdx_cons, List.foldl_cons, ih, List.findIdx?_cons]
    have hshift : ((fun i => (⟨e.hash, e.creator, .ofNat (k + i), 0, 0⟩ : TxPosition)) ∘ (· + 1)) =
        fun i => ⟨e.hash, e.creator, .ofNat (k + 1 + i), 0, 0⟩ := by
      funext i
      simp only [Function.comp_apply, Nat.add_comm i 1, Nat.add_assoc]
    by_cases htx : tx.hash = h
    · subst htx
      cases hm : m[tx.hash]? with
      | some x =>
        have hmem : m.contains tx.hash = true := by
          rw [ExtTreeMap.contains_eq_isSome_getElem?, hm, Option.isSome_some]
        simp only [hmem, if_true, hm, Option.some_or]
      | none =>
        have hmem : m.contains tx.hash = false := by
          rw [ExtTreeMap.contains_eq_isSome_getElem?, hm, Option.isSome_none]
        simp [hmem]
    · have hins : ∀ v, (if m.contains tx.hash then m else m.insert tx.hash v)[h]? = m[h]? := by
        intro v
        split_ifs
        · rfl
        · rw [ExtTreeMap.getElem?_insert, if_neg (by simpa using htx)]
      simp only [hins, htx, decide_false, Bool.false_eq_true, if_false, Option.map_map, hshift]

lemma getElem?_foldl_addPositions (blockEvents : List BlockEvent) (h : Hash)
    (m : ExtTreeMap Hash TxPosition) :
    (blockEvents.foldl addPositions m)[h]? = m[h]?.or (firstPosition blockEvents h) := by
  induction blockEvents generalizing m with
  | nil => simp [firstPosition]
  | cons e blockEvents ih =>
    have hfirst : firstPosition (e :: blockEvents) h =
        ((e.transactions.findIdx? (·.hash = h)).map fun i =>
          (⟨e.hash, e.creator, .ofNat i, 0, 0⟩ : TxPosition)).or (firstPosition blockEvents h) := by
      rw [firstPosition, List.findSome?_cons, firstPosition]
      cases e.transactions.findIdx? (·.hash = h) <;> rfl
    rw [List.foldl_cons, ih, hfirst, ← Option.or_assoc]
    congr 1
    rw [addPositions]
    simpa only [Nat.zero_add] using getElem?_foldl_positions e h e.transactions 0 m

/-- The map holds the first position of each transaction. -/
theorem getElem?_txPositions (blockEvents : List BlockEvent) (h : Hash) :
    (txPositions blockEvents)[h]? = firstPosition blockEvents h := by
  rw [txPositions, getElem?_foldl_addPositions, ExtTreeMap.getElem?_empty, Option.none_or]

lemma firstPosition_append_self (es : List BlockEvent) (h : Hash) :
    firstPosition (es ++ es) h = firstPosition es h := by
  rw [firstPosition, List.findSome?_append, ← firstPosition, Option.or_self]

/-! ### What is wanted of an assembled block -/

/-- The events from number `n` on are kept, in the block, in what `spillBlockEvents` returns, in the
transactions and in the events of the assembled block. -/
structure Keeps (limit : UInt64) (block : Block) (es : List BlockEvent) (n : ℕ)
    (spilled : ExecBlock × List (Option BlockEvent))
    (assembled : ExecBlock × List Tx × List BlockEvent) : Prop where
  longest : LongestFitting limit es n
  spilled_block : spilled.1.events = block.events.drop n
  spilled_events : spilled.2 = (es.drop n).map some
  block_events : assembled.1.events = block.events.drop n
  transactions : assembled.2.1 = (es.drop n).flatMap (·.transactions)
  events : assembled.2.2 = es.drop n
  positions : ∀ h, (txPositions assembled.2.2)[h]? = firstPosition (es.drop n) h

/-- The block is assembled from the longest suffix of its events within the limit. -/
def Assembled (getEvent : EventID → Option BlockEvent) (limit : UInt64) (block : Block) : Prop :=
  ∃ (es : List BlockEvent) (n : ℕ) (spilled : ExecBlock × List (Option BlockEvent))
    (assembled : ExecBlock × List Tx × List BlockEvent),
    block.events.map getEvent = es.map some ∧
    spillBlockEvents getEvent limit (.new block) = .ok spilled ∧
    assembleEvmBlock getEvent limit (.new block) = .ok assembled ∧
    Keeps limit block es n spilled assembled

section Kept

variable {getEvent : EventID → Option BlockEvent} {limit : UInt64} {block : Block}

lemma exists_events {events : List EventID} (h : ∀ id ∈ events, (getEvent id).isSome) :
    ∃ es : List BlockEvent, events.map getEvent = es.map some := by
  induction events with
  | nil => exact ⟨[], rfl⟩
  | cons id events ih =>
    obtain ⟨e, he⟩ := Option.isSome_iff_exists.mp (h id List.mem_cons_self)
    obtain ⟨es, hes⟩ := ih fun x hx => h x (List.mem_cons_of_mem id hx)
    exact ⟨e :: es, by rw [List.map_cons, he, hes, List.map_cons]⟩

lemma getLast_iff {events : List EventID} {es : List BlockEvent}
    (hes : events.map getEvent = es.map some) {P : BlockEvent → Prop} :
    (∀ id ∈ events.getLast?, ∀ e ∈ getEvent id, P e) ↔ ∀ e ∈ es.getLast?, P e := by
  have hlast : events.getLast?.map getEvent = es.getLast?.map some := by
    rw [← List.getLast?_map, hes, List.getLast?_map]
  cases hid : events.getLast? with
  | none =>
    rw [hid, Option.map_none, eq_comm, Option.map_eq_none_iff] at hlast
    simp [hlast]
  | some id =>
    rw [hid, Option.map_some, eq_comm, Option.map_eq_some_iff] at hlast
    obtain ⟨e, he, hget⟩ := hlast
    simp [he, ← hget]

/-- Everything but the returned events is as wanted, if no sum of gas is wrapped. -/
theorem assembleEvmBlock_keeps {es : List BlockEvent} (hes : block.events.map getEvent = es.map some)
    (hsmall : ∀ e ∈ es, limit.toNat + e.gasPowerUsed.toNat < 2 ^ 64) :
    ∃ n block' txs, spillBlockEvents getEvent limit (.new block) =
        .ok (block', (es.drop n).map some) ∧
      assembleEvmBlock getEvent limit (.new block) = .ok (block', txs, es.drop n ++ es.drop n) ∧
      LongestFitting limit es n ∧ block'.events = block.events.drop n ∧
      txs = (es.drop n).flatMap (·.transactions) ∧
      ∀ h, (txPositions (es.drop n ++ es.drop n))[h]? = firstPosition (es.drop n) h := by
  obtain ⟨n, hstop, hspill, hrun⟩ := assembleEvmBlock_ok limit hes
  exact ⟨n, _, _, hspill, hrun, hstop.longestFitting hsmall, rfl, rfl, fun h => by
    rw [getElem?_txPositions, firstPosition_append_self]⟩

/-- A block is assembled as wanted if and only if no event is kept: a kept event is returned twice. -/
theorem assembled_iff (hstored : ∀ id ∈ block.events, (getEvent id).isSome) :
    Assembled getEvent limit block ↔
      ∀ id ∈ block.events.getLast?, ∀ e ∈ getEvent id, limit < e.gasPowerUsed := by
  obtain ⟨es, hes⟩ := exists_events hstored
  obtain ⟨n, hstop, hspill, hrun⟩ := assembleEvmBlock_ok limit hes
  rw [getLast_iff hes, ← hstop.eq_length_iff]
  constructor
  · rintro ⟨es', m, spilled, assembled, hes', hspill', hrun', hkeeps⟩
    obtain rfl : es = es' := List.map_injective_iff.mpr (Option.some_injective _) (hes ▸ hes')
    cases Except.ok.inj (hspill.symm.trans hspill')
    cases Except.ok.inj (hrun.symm.trans hrun')
    -- the kept events are as long as their two copies
    have hone := congrArg List.length hkeeps.spilled_events
    have htwo := congrArg List.length hkeeps.events
    simp only [List.length_map, List.length_append, List.length_drop] at hone htwo
    have := hstop.le
    omega
  · rintro rfl
    refine ⟨es, es.length, _, _, hes, hspill, hrun,
      longestFitting_length (hstop.eq_length_iff.mp rfl), rfl, rfl, rfl, rfl, ?_, fun h => ?_⟩
    · rw [List.drop_length, List.append_nil]
    · rw [getElem?_txPositions, List.drop_length]
      rfl

end Kept

/-! ### A block with one event -/

/-- An event with one transaction. -/
def paidEvent : BlockEvent := ⟨7, 1, 21000, [⟨5, 21000⟩]⟩

def paidBlock : Block := ⟨1, 1, 7, 0, [7]⟩

def paidStore (id : EventID) : Option BlockEvent := if id = 7 then some paidEvent else none

theorem assembled_iff_paidBlock :
    (∀ id ∈ paidBlock.events, (paidStore id).isSome) ∧
      (Assembled paidStore 20000 paidBlock ↔
        ∀ id ∈ paidBlock.events.getLast?, ∀ e ∈ paidStore id, 20000 < e.gasPowerUsed) :=
  ⟨by decide, assembled_iff (by decide)⟩

/-- Within the limit of the main network the event is returned twice. -/
theorem not_assembled_paidBlock : ¬ Assembled paidStore 20000000 paidBlock ∧
    (assembleEvmBlock paidStore 20000000 (.new paidBlock)).map (·.2.2) =
      .ok [paidEvent, paidEvent] := by
  have hrun : (assembleEvmBlock paidStore 20000000 (.new paidBlock)).map (·.2.2) =
      .ok [paidEvent, paidEvent] := by decide +kernel
  have hspill : (spillBlockEvents paidStore 20000000 (.new paidBlock)).map (·.2) =
      .ok [some paidEvent] := by decide +kernel
  refine ⟨?_, hrun⟩
  rintro ⟨es, n, spilled, assembled, hes, hspilled, hassembled, hkeeps⟩
  rw [hassembled] at hrun
  rw [hspilled] at hspill
  have hone : es.drop n = [paidEvent, paidEvent] := by
    rw [← hkeeps.events]
    exact Except.ok.inj hrun
  have htwo : (es.drop n).map some = [some paidEvent] := by
    rw [← hkeeps.spilled_events]
    exact Except.ok.inj hspill
  rw [hone] at htwo
  cases htwo

/-! ### A block with two events -/

/-- An event of the same gas. -/
def laterEvent : BlockEvent := ⟨8, 2, 21000, [⟨6, 21000⟩]⟩

def fullBlock : Block := ⟨1, 1, 8, 0, [7, 8]⟩

def fullStore (id : EventID) : Option BlockEvent :=
  if id = 8 then some laterEvent else paidStore id

/-- Only the later event is within the limit. -/
theorem assembleEvmBlock_keeps_fullBlock : ∃ block' txs,
    spillBlockEvents fullStore 30000 (.new fullBlock) = .ok (block', [some laterEvent]) ∧
    assembleEvmBlock fullStore 30000 (.new fullBlock) =
      .ok (block', txs, [laterEvent, laterEvent]) ∧
    LongestFitting 30000 [paidEvent, laterEvent] 1 ∧ block'.events = [8] ∧
    txs = laterEvent.transactions ∧
    ∀ h, (txPositions [laterEvent, laterEvent])[h]? = firstPosition [laterEvent] h := by
  obtain ⟨n, block', txs, hspill, hrun, hlongest, hkept⟩ := assembleEvmBlock_keeps
    (show fullBlock.events.map fullStore = [paidEvent, laterEvent].map some by decide)
    (show ∀ e ∈ [paidEvent, laterEvent], (30000 : UInt64).toNat + e.gasPowerUsed.toNat < 2 ^ 64 by
      decide)
  obtain rfl : n = 1 := by
    match n with
    | 0 => exact absurd hlongest.fits (by decide)
    | 1 => rfl
    | n + 2 => exact absurd (hlongest.longest 1 (by omega)) (by decide)
  exact ⟨block', txs, hspill, hrun, hlongest, hkept⟩

end BlockAssembly

end Lachesis
