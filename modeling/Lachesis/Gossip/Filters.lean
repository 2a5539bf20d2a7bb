import Mathlib.Data.List.Flatten
import Mathlib.Data.List.Permutation
import Lachesis.Topicsdb.Interleaving

/-!
# Filtering logs

`Filter.Logs` goes through the blocks of a range if the query has no topics, and asks the index of
logs otherwise. The blocks are gone through in their order. The index answers in the order of a map
and with the fields that it stores, and the answer is not sorted afterwards.
-/

namespace Lachesis.Filters

open Lachesis.Core Lachesis.Topicsdb Std

/-! ### The chain -/

/-- A block: its hash and, for each receipt, its logs. -/
structure Block where
  hash : HashBytes
  receipts : List (List Log)

def Block.logs (blk : Block) : List Log := blk.receipts.flatten

/-- `evmcore.EvmHeader` -/
structure Header where
  number : ℕ
  hash : HashBytes

/-- The ways a call ends with an error. -/
inductive FilterError
  /-- `unknown block` -/
  | unknownBlock
  /-- `pending block request isn't allowed` -/
  | pendingBlock
  /-- `transactions index is disabled (enable TxIndex and re-process the DAGs)` -/
  | txIndexDisabled
  /-- An error of `Find`. -/
  | search
  deriving DecidableEq

/-- `Backend`: the blocks under their numbers and the index of their logs, which does not depend on
whether the receipts are stored. -/
structure Backend where
  blocks : List Block
  evmLogIndex : Index
  /-- `TxIndex` -/
  txIndex : Bool

namespace Backend

variable (b : Backend)

def header (n : ℕ) : Option Header := b.blocks[n]?.map fun blk => ⟨n, blk.hash⟩

/-- `HeaderByNumber`, where -2 is the pending block and -1 the latest one. -/
def headerByNumber (n : ℤ) : Except FilterError (Option Header) :=
  if n = -2 then .error .pendingBlock
  else if n = -1 then .ok (b.header (b.blocks.length - 1))
  else .ok (if 0 ≤ n then b.header n.toNat else none)

def headerByHash (hash : HashBytes) : Option Header :=
  (b.blocks.findIdx? (·.hash = hash)).bind b.header

def getReceipts (n : ℕ) : List (List Log) := (b.blocks[n]?.map (·.receipts)).getD []

def getReceiptsByNumber (n : ℤ) : Except FilterError (List (List Log)) :=
  if !b.txIndex then .error .txIndexDisabled
  else if n = -2 then .error .pendingBlock
  else if n = -1 then .ok (b.getReceipts (b.blocks.length - 1))
  else .ok (if 0 ≤ n then b.getReceipts n.toNat else [])

def getReceiptsByHash (hash : HashBytes) : Except FilterError (List (List Log)) :=
  match b.blocks.findIdx? (·.hash = hash) with
  | none => .ok []
  | some number => b.getReceiptsByNumber number

/-- `GetLogs`: the logs of each receipt. -/
def getLogs (hash : HashBytes) : Except FilterError (List (List Log)) := b.getReceiptsByHash hash

def logs : List Log := b.blocks.flatMap Block.logs

end Backend

/-! ### The filter -/

def includes (addresses : List AddressBytes) (a : AddressBytes) : Bool := addresses.any (· = a)

/-- A log that `filterLogs` keeps, as far as its address and topics go. -/
def accepts (addresses : List AddressBytes) (topics : List (List HashBytes)) (log : Log) : Bool :=
  (addresses.isEmpty || includes addresses log.address) &&
    topics.length ≤ log.topics.length &&
    topics.zipIdx.all fun (sub, i) =>
      sub.isEmpty || sub.any fun topic => log.topics[i]? = some topic

/-- The block of the log is not before `fromBlock`, if that is given. -/
def notBefore (fromBlock : Option ℤ) (log : Log) : Bool :=
  fromBlock.all fun n => !(0 ≤ n && log.blockNumber.toNat < n.toNat)

/-- The block of the log is not after `toBlock`, if that is given. -/
def notAfter (toBlock : Option ℤ) (log : Log) : Bool :=
  toBlock.all fun n => !(0 ≤ n && n.toNat < log.blockNumber.toNat)

def filterLogs (logs : List Log) (fromBlock toBlock : Option ℤ) (addresses : List AddressBytes)
    (topics : List (List HashBytes)) : List Log :=
  logs.filter fun log =>
    notBefore fromBlock log && notAfter toBlock log && accepts addresses topics log

def isEmpty (topics : List (List HashBytes)) : Bool := topics.all (·.isEmpty)

/-- `Filter`; `begin` and `end` are `int64`, with -1 for the latest block. -/
structure Filter where
  addresses : List AddressBytes
  topics : List (List HashBytes)
  block : HashBytes
  beginBlock : ℤ
  endBlock : ℤ

namespace Filter

variable (f : Filter) (b : Backend)

def checkMatches (header : Header) : Except FilterError (List Log) := do
  let unfiltered := (← b.getLogs header.hash).flatten
  match filterLogs unfiltered none none f.addresses f.topics with
  | [] => return []
  | log :: logs =>
    if log.txHash = HashBytes.zero then
      let receipts ← b.getReceiptsByHash header.hash
      return filterLogs receipts.flatten none none f.addresses f.topics
    else return log :: logs

def blockLogs (header : Header) : Except FilterError (List Log) := f.checkMatches b header

/-- `n` rounds of the loop of `Filter.unindexedLogs`. -/
def unindexedFrom : ℕ → ℤ → List Log → Except FilterError (List Log)
  | 0, _, logs => .ok logs
  | n + 1, number, logs => do
    match ← b.headerByNumber number with
    | none => return logs
    | some header =>
      let found ← f.blockLogs b header
      unindexedFrom n (number + 1) (logs ++ found)

def unindexedLogs (first last : ℤ) : Except FilterError (List Log) :=
  f.unindexedFrom b (last + 1 - first).toNat first []

/-- `Filter.indexedLogs`, when `Find` returns `find`. -/
def indexedLogs (first last : ℤ) (find : Option (List Log)) : Except FilterError (List Log) :=
  match find with
  | none => .error .search
  | some logs => .ok (filterLogs logs (some first) (some last) f.addresses f.topics)

def logs (find : Option (List Log)) : Except FilterError (List Log) :=
  if f.block ≠ HashBytes.zero then
    match b.headerByHash f.block with
    | none => .error .unknownBlock
    | some header => f.blockLogs b header
  else
    match b.headerByNumber (-1) with
    | .ok (some header) =>
      let first := if f.beginBlock = -1 then (header.number : ℤ) else f.beginBlock
      let last := if f.endBlock = -1 then (header.number : ℤ) else f.endBlock
      if isEmpty f.topics then f.unindexedLogs b first last
      else f.indexedLogs first last find
    | _ => .ok []

/-- `Filter.Logs` returns, with a result as described by `Q`, whatever the order of the map and the
interleaving of the search are. -/
def Answers (Q : List Log → Prop) : Prop :=
  if isEmpty f.topics then ∃ logs, f.logs b none = .ok logs ∧ Q logs
  else ∀ order, Ends (Search.Step b.evmLogIndex order f.topics false)
    (fun s => ∃ found, s.caller = .returned (some found) ∧
      ∃ logs, f.logs b (some found) = .ok logs ∧ Q logs)
    (.start b.evmLogIndex f.topics)

/-- Some run of `Filter.Logs` over the index returns `logs`. -/
def MayReturn (logs : List Log) : Prop :=
  ∃ order s found, Relation.ReflTransGen (Search.Step b.evmLogIndex order f.topics false)
      (.start b.evmLogIndex f.topics) s ∧
    (∀ t, ¬ Search.Step b.evmLogIndex order f.topics false s t) ∧
    s.caller = .returned (some found) ∧ f.logs b (some found) = .ok logs

/-! ### What is to be returned -/

/-- The order of the chain. -/
def Before (l l' : Log) : Prop :=
  l.blockNumber < l'.blockNumber ∨ l.blockNumber = l'.blockNumber ∧ l.index < l'.index

/-- A log of the blocks from `first` to `last` that meets the criteria. -/
def Wanted (first last : ℕ) (log : Log) : Prop :=
  log ∈ b.logs ∧ first ≤ log.blockNumber.toNat ∧ log.blockNumber.toNat ≤ last ∧
    accepts f.addresses f.topics log

/-- Each of these logs once, in the order of the chain. -/
structure Exact (first last : ℕ) (logs : List Log) : Prop where
  ascending : logs.Pairwise Before
  mem : ∀ log, log ∈ logs ↔ f.Wanted b first last log

end Filter

/-- The logs are numbered along the chain, and all of them are in the index. -/
structure Backend.UpToDate (b : Backend) : Prop where
  hashes : (b.blocks.map (·.hash)).Nodup
  number : ∀ n (blk : Block), b.blocks[n]? = some blk → ∀ log ∈ blk.logs, log.blockNumber.toNat = n
  index : ∀ blk ∈ b.blocks, blk.logs.Pairwise fun l l' => l.index < l'.index
  count : ∀ log ∈ b.logs, log.topics.length ≤ maxCount
  holds : b.evmLogIndex.Holds b.logs

namespace Backend.UpToDate

variable {b : Backend} (h : b.UpToDate)

include h

lemma mem_logs {log : Log} : log ∈ b.logs ↔
    ∃ blk, b.blocks[log.blockNumber.toNat]? = some blk ∧ log ∈ blk.logs := by
  rw [Backend.logs, List.mem_flatMap]
  constructor
  · rintro ⟨blk, hblk, hlog⟩
    obtain ⟨n, hn⟩ := List.mem_iff_getElem?.mp hblk
    exact ⟨blk, by rw [h.number n blk hn log hlog, hn], hlog⟩
  · rintro ⟨blk, hblk, hlog⟩
    exact ⟨blk, List.mem_of_getElem? hblk, hlog⟩

lemma pairwise : b.logs.Pairwise Filter.Before := by
  rw [Backend.logs, List.pairwise_flatMap]
  constructor
  · intro blk hblk
    obtain ⟨n, hn⟩ := List.mem_iff_getElem?.mp hblk
    refine (h.index blk hblk).imp_of_mem fun {l l'} hl hl' hlt => .inr ⟨?_, hlt⟩
    rw [← UInt64.toNat_inj, h.number n blk hn l hl, h.number n blk hn l' hl']
  · rw [List.pairwise_iff_getElem]
    intro i j hi hj hij l hl l' hl'
    left
    rw [UInt64.lt_iff_toNat_lt, h.number i _ (List.getElem?_eq_getElem hi) l hl,
      h.number j _ (List.getElem?_eq_getElem hj) l' hl']
    exact hij

lemma pushable : Pushable b.logs where
  ids := by
    rw [List.Nodup, List.pairwise_map]
    refine h.pairwise.imp fun {l l'} hbefore hid => ?_
    have hnumber := congrArg ID.blockNumber hid
    have hindex := congrArg ID.index hid
    simp only [Log.id, ID.blockNumber_new, ID.index_new] at hnumber hindex
    rcases hbefore with hlt | ⟨-, hlt⟩
    · exact UInt64.ne_of_lt hlt hnumber
    · exact UInt64.ne_of_lt hlt hindex
  count := h.count

lemma getReceiptsByHash {n : ℕ} {blk : Block} (hblk : b.blocks[n]? = some blk) :
    b.getReceiptsByHash blk.hash =
      if b.txIndex then .ok blk.receipts else .error .txIndexDisabled := by
  obtain ⟨hn, rfl⟩ := List.getElem?_eq_some_iff.mp hblk
  have hfind : b.blocks.findIdx? (·.hash = b.blocks[n].hash) = some n := by
    rw [List.findIdx?_eq_some_iff_getElem]
    refine ⟨hn, by simp, fun j hj => ?_⟩
    have hne : b.blocks[j].hash ≠ b.blocks[n].hash :=
      List.pairwise_iff_getElem.mp (List.pairwise_map.mp h.hashes) j n (hj.trans hn) hn hj
    simpa using hne
  rw [Backend.getReceiptsByHash, hfind]
  cases htx : b.txIndex with
  | false => simp [getReceiptsByNumber, htx]
  | true =>
    simp only [getReceiptsByNumber, htx, Bool.not_true, Bool.false_eq_true, if_false, if_true]
    rw [if_neg (by omega), if_neg (by omega), if_pos (by omega), Int.toNat_natCast, getReceipts,
      hblk]
    rfl

lemma blockLogs (f : Filter) {n : ℕ} {blk : Block} (hblk : b.blocks[n]? = some blk) :
    f.blockLogs b ⟨n, blk.hash⟩ = if b.txIndex then
      .ok (blk.logs.filter (accepts f.addresses f.topics)) else .error .txIndexDisabled := by
  have hfilter : filterLogs blk.receipts.flatten none none f.addresses f.topics =
      blk.logs.filter (accepts f.addresses f.topics) := by
    simp [filterLogs, notBefore, notAfter, Block.logs]
  rw [Filter.blockLogs, Filter.checkMatches, Backend.getLogs, h.getReceiptsByHash hblk]
  cases b.txIndex with
  | false => rfl
  | true =>
    simp only [if_true, bind, Except.bind, hfilter]
    split
    · rename_i hnil
      rw [hnil]
      rfl
    · rename_i hcons
      rw [hcons]
      split <;> rfl

omit h in
lemma headerByNumber_natCast {k : ℕ} (hk : k < b.blocks.length) :
    b.headerByNumber k = .ok (some ⟨k, b.blocks[k].hash⟩) := by
  rw [Backend.headerByNumber, if_neg (by omega), if_neg (by omega), if_pos (by omega),
    Int.toNat_natCast, Backend.header, List.getElem?_eq_getElem hk]
  rfl

lemma unindexedFrom (f : Filter) (htx : b.txIndex = true) {n k : ℕ}
    (hle : k + n ≤ b.blocks.length) (logs : List Log) :
    f.unindexedFrom b n k logs = .ok (logs ++ ((b.blocks.drop k).take n).flatMap
      fun blk => blk.logs.filter (accepts f.addresses f.topics)) := by
  induction n generalizing k logs with
  | zero => simp [Filter.unindexedFrom]
  | succ n ih =>
    have hk : k < b.blocks.length := by omega
    simp only [Filter.unindexedFrom, headerByNumber_natCast hk, bind, Except.bind,
      h.blockLogs f (List.getElem?_eq_getElem hk), htx, if_true]
    rw [show (k : ℤ) + 1 = ((k + 1 : ℕ) : ℤ) from rfl, ih (by omega), List.drop_eq_getElem_cons hk,
      List.take_succ_cons, List.flatMap_cons, List.append_assoc]

/-- Without the receipts the first block is an error. -/
lemma unindexedFrom_error (f : Filter) (htx : b.txIndex = false) {n k : ℕ}
    (hk : k < b.blocks.length) (logs : List Log) :
    f.unindexedFrom b (n + 1) k logs = .error .txIndexDisabled := by
  simp [Filter.unindexedFrom, headerByNumber_natCast hk, bind, Except.bind,
    h.blockLogs f (List.getElem?_eq_getElem hk), htx]

end Backend.UpToDate

namespace Filter

variable {f : Filter} {b : Backend} {first last : ℕ}

/-- Reading block by block finds exactly the logs asked for. -/
lemma exact_unindexed (h : b.UpToDate) (f : Filter) (first last : ℕ) :
    f.Exact b first last (((b.blocks.drop first).take (last + 1 - first)).flatMap
      fun blk => blk.logs.filter (accepts f.addresses f.topics)) := by
  rw [← List.filter_flatMap]
  constructor
  · refine h.pairwise.sublist (List.filter_sublist.trans (List.Sublist.flatMap ?_ _))
    exact (List.take_sublist ..).trans (List.drop_sublist ..)
  · intro log
    rw [List.mem_filter, Wanted, ← and_assoc, ← and_assoc]
    refine and_congr_left fun _ => ?_
    rw [and_assoc, h.mem_logs, List.mem_flatMap]
    constructor
    · rintro ⟨blk, hblk, hlog⟩
      obtain ⟨i, hi⟩ := List.mem_iff_getElem?.mp hblk
      rw [List.getElem?_take, List.getElem?_drop, Option.ite_none_right_eq_some] at hi
      obtain ⟨hlt, hi⟩ := hi
      have hnumber := h.number _ blk hi log hlog
      exact ⟨⟨blk, hnumber ▸ hi, hlog⟩, by omega, by omega⟩
    · rintro ⟨⟨blk, hblk, hlog⟩, hfirst, hlast⟩
      refine ⟨blk, List.mem_iff_getElem?.mpr ⟨log.blockNumber.toNat - first, ?_⟩, hlog⟩
      rw [List.getElem?_take, List.getElem?_drop, Nat.add_sub_cancel' hfirst,
        Option.ite_none_right_eq_some]
      exact ⟨by omega, hblk⟩

/-! ### The path over the index -/

/-- What `filterLogs` asks of a log on this path. -/
def keeps (f : Filter) (first last : ℕ) (log : Log) : Bool :=
  notBefore (some first) log && notAfter (some last) log && accepts f.addresses f.topics log

lemma keeps_iff {log : Log} : f.keeps first last log ↔ first ≤ log.blockNumber.toNat ∧
    log.blockNumber.toNat ≤ last ∧ accepts f.addresses f.topics log := by
  simp [keeps, notBefore, notAfter, and_assoc]

lemma exact_filter (h : b.UpToDate) :
    f.Exact b first last (b.logs.filter (f.keeps first last)) where
  ascending := h.pairwise.sublist List.filter_sublist
  mem log := by rw [List.mem_filter, keeps_iff, Wanted]

lemma hitOften_of_keeps (hne : isEmpty f.topics = false) {log : Log}
    (h : f.keeps first last log) : log.hitOften f.topics := by
  refine hitOften_of_satisfies ?_ ?_
  · simpa [isEmpty] using hne
  · have haccepts := (keeps_iff.mp h).2.2
    rw [accepts, Bool.and_eq_true] at haccepts
    exact haccepts.2

lemma filterLogs_found (hne : isEmpty f.topics = false) {found : List Log}
    (hfound : found.Perm ((b.logs.filter (Log.hitOften f.topics)).map Log.indexed)) :
    (filterLogs found (some first) (some last) f.addresses f.topics).Perm
      ((b.logs.filter (f.keeps first last)).map Log.indexed) := by
  refine (hfound.filter (f.keeps first last)).trans (.of_eq ?_)
  rw [List.filter_map, List.filter_filter]
  congr 1
  refine List.filter_congr fun log _ => ?_
  -- The stored fields decide.
  have hindexed : f.keeps first last log.indexed = f.keeps first last log := rfl
  rw [Function.comp, hindexed, Bool.and_eq_left_iff_imp]
  exact hitOften_of_keeps hne

/-! ### The result -/

/-- A filter for a range of blocks of the chain, with topics as a search takes them. -/
structure Ranges (f : Filter) (b : Backend) (first last : ℕ) : Prop where
  block : f.block = HashBytes.zero
  beginBlock : f.beginBlock = first
  endBlock : f.endBlock = last
  le : first ≤ last
  head : last < b.blocks.length
  topics : f.topics.length ≤ maxCount
  nodup : ∀ cond ∈ f.topics, cond.Nodup

section

variable (h : f.Ranges b first last)
include h

lemma Ranges.logs (find : Option (List Log)) :
    f.logs b find = if isEmpty f.topics then f.unindexedLogs b first last
      else f.indexedLogs first last find := by
  have hhead := h.head
  have hheader : b.headerByNumber (-1) =
      .ok (some ⟨b.blocks.length - 1, (b.blocks[b.blocks.length - 1]).hash⟩) := by
    rw [Backend.headerByNumber, if_neg (by omega), if_pos rfl, Backend.header,
      List.getElem?_eq_getElem (by omega)]
    rfl
  have hfirst : (first : ℤ) ≠ -1 := by omega
  have hlast : (last : ℤ) ≠ -1 := by omega
  rw [Filter.logs, if_neg (not_not.mpr h.block)]
  simp only [hheader, h.beginBlock, h.endBlock, if_neg hfirst, if_neg hlast]

lemma Ranges.answers_unindexed (hb : b.UpToDate)
    (htx : b.txIndex = true) (hempty : isEmpty f.topics = true) :
    f.Answers b (f.Exact b first last) := by
  rw [Answers, if_pos hempty]
  have hle := h.le
  have hhead := h.head
  refine ⟨_, ?_, exact_unindexed hb f first last⟩
  rw [h.logs, if_pos hempty, unindexedLogs,
    show ((last : ℤ) + 1 - first).toNat = last + 1 - first by omega,
    hb.unindexedFrom f htx (by omega), List.nil_append]

lemma Ranges.not_answers (hb : b.UpToDate) (htx : b.txIndex = false)
    (hempty : isEmpty f.topics = true) (Q : List Log → Prop) : ¬ f.Answers b Q := by
  rw [Answers, if_pos hempty]
  rintro ⟨logs, hlogs, -⟩
  have hle := h.le
  have hhead := h.head
  rw [h.logs, if_pos hempty, unindexedLogs,
    show ((last : ℤ) + 1 - first).toNat = last - first + 1 by omega,
    hb.unindexedFrom_error f htx (by omega)] at hlogs
  cases hlogs

lemma Ranges.answers_indexed (hb : b.UpToDate)
    (hne : isEmpty f.topics = false) : f.Answers b fun logs =>
      logs.Perm ((b.logs.filter (f.keeps first last)).map Log.indexed) := by
  rw [Answers, if_neg (by simp [hne])]
  intro order
  obtain ⟨res, hsync, hres⟩ := hb.holds.fetchSync hb.pushable h.topics OneTopic.keyOrder
  obtain ⟨hits, hhits, -⟩ := hb.holds.hits hb.pushable h.topics
  have hfits := hb.holds.hitsOn_le hb.pushable h.topics h.nodup hhits
  refine (Search.ends_perm hsync hhits hfits order).imp ?_
  rintro s ⟨found, hcaller, hperm⟩
  refine ⟨found, hcaller, _, ?_, filterLogs_found hne (hperm.trans hres)⟩
  rw [h.logs, if_neg (by simp [hne])]
  rfl

lemma Ranges.exists_mayReturn (hb : b.UpToDate) (hne : isEmpty f.topics = false) :
    ∃ logs, logs.Perm ((b.logs.filter (f.keeps first last)).map Log.indexed) ∧
      f.MayReturn b logs ∧ f.MayReturn b logs.reverse := by
  obtain ⟨res, hsync, hres⟩ := hb.holds.fetchSync hb.pushable h.topics OneTopic.keyOrder
  obtain ⟨hits, hhits, -⟩ := hb.holds.hits hb.pushable h.topics
  have hfits := hb.holds.hitsOn_le hb.pushable h.topics h.nodup hhits
  have hrun : ∀ order : MapOrder ID, ∃ found,
      (Plan.ofSync hsync hhits order false).Gathered
        (Plan.ofSync hsync hhits order false).ids found ∧
      f.MayReturn b (filterLogs found (some first) (some last) f.addresses f.topics) := by
    intro order
    obtain ⟨s, hrun, hend, found, hcaller, hgathered⟩ :=
      ((Plan.ofSync hsync hhits order false).ends_gathered hfits rfl).exists_end
    refine ⟨found, hgathered, order, s, found, hrun, hend, hcaller, ?_⟩
    rw [h.logs, if_neg (by simp [hne])]
    rfl
  obtain ⟨found, hgathered, hlogs⟩ := hrun OneTopic.keyOrder
  obtain ⟨found', hgathered', hlogs'⟩ := hrun OneTopic.keyOrder.reverse
  obtain rfl := hgathered.reverse hgathered'
  refine ⟨_, filterLogs_found hne ((hgathered.perm hsync hhits).trans hres), hlogs, ?_⟩
  rwa [filterLogs, List.filter_reverse] at hlogs'

end

lemma Answers.of_mayReturn (hne : isEmpty f.topics = false) {Q : List Log → Prop}
    (h : f.Answers b Q) {logs : List Log} (hlogs : f.MayReturn b logs) : Q logs := by
  rw [Answers, if_neg (by simp [hne])] at h
  obtain ⟨order, s, found, hrun, hend, hcaller, hlogs⟩ := hlogs
  obtain ⟨found', hcaller', logs', hlogs', hQ⟩ := (h order).2 s hrun hend
  obtain rfl : found = found' := by simpa [hcaller] using hcaller'
  rw [hlogs] at hlogs'
  cases hlogs'
  exact hQ

lemma Before.asymm {l l' : Log} (h : Before l l') : ¬ Before l' l := by
  rintro (h' | ⟨h', hlt'⟩)
  · rcases h with h | ⟨h, -⟩
    · exact UInt64.lt_asymm h h'
    · exact UInt64.ne_of_lt h' h.symm
  · rcases h with h | ⟨-, hlt⟩
    · exact UInt64.ne_of_lt h h'.symm
    · exact UInt64.lt_asymm hlt hlt'

lemma eq_of_pairwise_reverse {logs : List Log} (h : logs.Pairwise Before)
    (h' : logs.reverse.Pairwise Before) {l l' : Log} (hl : l ∈ logs) (hl' : l' ∈ logs) :
    l = l' := by
  rw [List.pairwise_reverse] at h'
  match logs, h, h' with
  | [l₀], _, _ => rw [List.mem_singleton.mp hl, List.mem_singleton.mp hl']
  | l₀ :: l₁ :: _, h, h' =>
    have hbefore := (List.pairwise_cons.mp h).1 l₁ List.mem_cons_self
    exact absurd ((List.pairwise_cons.mp h').1 l₁ List.mem_cons_self) hbefore.asymm

/-- Of at most one log there is one order only. -/
lemma Exact.eq_of_perm {logs logs' : List Log} (h : f.Exact b first last logs)
    (hone : ∀ l l', f.Wanted b first last l → f.Wanted b first last l' → l = l')
    (hperm : logs'.Perm logs) : logs' = logs := by
  match logs, h with
  | [], _ => exact hperm.eq_nil
  | [l], _ => exact List.perm_singleton.mp hperm
  | l :: l' :: _, h =>
    have hbefore := (List.pairwise_cons.mp h.ascending).1 l' List.mem_cons_self
    obtain rfl := hone l l' ((h.mem l).mp (by simp)) ((h.mem l').mp (by simp))
    exact absurd hbefore hbefore.asymm

lemma Answers.imp {Q Q' : List Log → Prop} (h : f.Answers b Q) (hQ : ∀ logs, Q logs → Q' logs) :
    f.Answers b Q' := by
  unfold Answers at h ⊢
  split
  · rename_i hempty
    rw [if_pos hempty] at h
    exact h.imp fun logs => And.imp_right (hQ logs)
  · rename_i hne
    rw [if_neg hne] at h
    exact fun order => (h order).imp fun s ⟨found, hcaller, logs, hlogs, hQlogs⟩ =>
      ⟨found, hcaller, logs, hlogs, hQ logs hQlogs⟩

/-- Over an up-to-date index, `Filter.Logs` returns the logs that are asked for in every run,
exactly if it goes over the blocks and their receipts are stored, or if it asks the index, which
stores all fields of the logs, and there is one such log at most. Unless the receipts are needed and
not stored, the logs are right up to their order and the fields that are not stored. -/
theorem logs_exact_iff (hb : b.UpToDate) (h : f.Ranges b first last) :
    (f.Answers b (f.Exact b first last) ↔ (isEmpty f.topics = true ∧ b.txIndex = true) ∨
      isEmpty f.topics = false ∧
        (∀ l l', f.Wanted b first last l → f.Wanted b first last l' → l = l') ∧
        ∀ l, f.Wanted b first last l → l.indexed = l) ∧
    ((isEmpty f.topics = true → b.txIndex = true) → f.Answers b fun logs =>
      ∃ wanted, f.Exact b first last wanted ∧
        (logs = wanted ∨ isEmpty f.topics = false ∧ logs.Perm (wanted.map Log.indexed))) := by
  cases hempty : isEmpty f.topics with
  | true =>
    cases htx : b.txIndex with
    | false => exact ⟨by simp [h.not_answers hb htx hempty], by simp⟩
    | true =>
      have hanswers := h.answers_unindexed hb htx hempty
      refine ⟨iff_of_true hanswers (.inl ⟨rfl, rfl⟩), fun _ => ?_⟩
      rw [Answers, if_pos hempty] at hanswers ⊢
      obtain ⟨logs, hlogs, hexact⟩ := hanswers
      exact ⟨logs, hlogs, logs, hexact, .inl rfl⟩
  | false =>
    have hperm := h.answers_indexed hb hempty
    refine ⟨⟨fun hanswers => .inr ⟨rfl, ?_⟩, ?_⟩, fun _ =>
      hperm.imp fun logs hlogs => ⟨_, exact_filter hb, .inr ⟨rfl, hlogs⟩⟩⟩
    · obtain ⟨logs, hlogs, hmay, hmay'⟩ := h.exists_mayReturn hb hempty
      have hexact := hanswers.of_mayReturn hempty hmay
      have hexact' := hanswers.of_mayReturn hempty hmay'
      refine ⟨fun l l' hl hl' => ?_, fun l hl => ?_⟩
      · exact eq_of_pairwise_reverse hexact.ascending hexact'.ascending ((hexact.mem l).mpr hl)
          ((hexact.mem l').mpr hl')
      · obtain ⟨stored, -, rfl⟩ := List.mem_map.mp (hlogs.mem_iff.mp ((hexact.mem l).mpr hl))
        rfl
    · rintro (⟨hfalse, -⟩ | ⟨-, hone, hstored⟩)
      · cases hfalse
      · have hexact : f.Exact b first last (b.logs.filter (f.keeps first last)) := exact_filter hb
        have hmap : (b.logs.filter (f.keeps first last)).map Log.indexed =
            b.logs.filter (f.keeps first last) :=
          (List.map_congr_left fun l hl => hstored l ((hexact.mem l).mp hl)).trans (List.map_id _)
        refine hperm.imp fun logs hlogs => ?_
        rw [hmap] at hlogs
        rwa [hexact.eq_of_perm hone hlogs]

end Filter

namespace TwoLogs

/-- The first log of a block, with one topic. -/
def first : Log := { OneTopic.log with blockNumber := 0 }

/-- The next log, of another contract. -/
def second : Log := { first with index := 1, address := ⟨List.replicate 20 8, rfl⟩ }

/-- A chain of one block with both logs. -/
def backend : Backend where
  blocks := [⟨OneTopic.hash 9, [[first, second]]⟩]
  evmLogIndex := (Index.empty.push [first, second]).1
  txIndex := true

/-- Asks for the topic. -/
def filter (addresses : List AddressBytes) : Filter where
  addresses
  topics := [[OneTopic.hash 1]]
  block := HashBytes.zero
  beginBlock := 0
  endBlock := 0

lemma upToDate : backend.UpToDate where
  hashes := List.nodup_singleton _
  number n blk hblk log hlog := by
    obtain ⟨hn, rfl⟩ : n = 0 ∧ ⟨OneTopic.hash 9, [[first, second]]⟩ = blk := by
      cases n with
      | zero => exact ⟨rfl, Option.some.inj hblk⟩
      | succ n => cases hblk
    subst hn
    have : log = first ∨ log = second := by simpa [Block.logs] using hlog
    rcases this with rfl | rfl <;> rfl
  index blk hblk := by
    obtain rfl := List.mem_singleton.mp hblk
    decide +kernel
  count := by decide +kernel
  holds := by
    obtain ⟨tt, hpush, hholds⟩ := Index.push_holds
      (show ([first, second].map Log.id).Nodup by decide +kernel) (by decide +kernel)
    rw [backend, hpush]
    exact hholds

lemma ranges (addresses : List AddressBytes) : (filter addresses).Ranges backend 0 0 :=
  ⟨rfl, rfl, rfl, le_rfl, by decide, show 1 ≤ maxCount by decide, by simp [filter]⟩

lemma eq_or_eq_of_mem {l : Log} (h : l ∈ backend.logs) : l = first ∨ l = second := by
  simpa [backend, Backend.logs, Block.logs] using h

/-- The log of one contract is returned. -/
theorem logs_exact_iff_first : backend.UpToDate ∧ (filter [first.address]).Ranges backend 0 0 ∧
    (filter [first.address]).Answers backend ((filter [first.address]).Exact backend 0 0) := by
  have hfirst : ∀ l, (filter [first.address]).Wanted backend 0 0 l → l = first := by
    rintro l ⟨hl, -, -, haccepts⟩
    rcases eq_or_eq_of_mem hl with rfl | rfl
    · rfl
    · exact absurd haccepts (by decide +kernel)
  refine ⟨upToDate, ranges _,
    (Filter.logs_exact_iff upToDate (ranges _)).1.mpr (.inr ⟨rfl, fun l l' hl hl' => ?_, ?_⟩)⟩
  · rw [hfirst l hl, hfirst l' hl']
  · intro l hl
    rw [hfirst l hl]
    decide +kernel

/-- The logs of all contracts may be returned from the last to the first. -/
theorem logs_reversed : backend.UpToDate ∧ (filter []).Ranges backend 0 0 ∧
    (filter []).Exact backend 0 0 [first, second] ∧
    (filter []).MayReturn backend [second, first] := by
  have hkept : backend.logs.filter ((filter []).keeps 0 0) = [first, second] := by decide +kernel
  refine ⟨upToDate, ranges _, hkept ▸ Filter.exact_filter upToDate, ?_⟩
  obtain ⟨logs, hlogs, hmay, hmay'⟩ := (ranges []).exists_mayReturn upToDate (by decide)
  rw [hkept, show [first, second].map Log.indexed = [first, second] by decide +kernel,
    ← List.mem_permutations] at hlogs
  have hcases : logs = [first, second] ∨ logs = [second, first] := by
    simpa [List.permutations] using hlogs
  rcases hcases with rfl | rfl
  · exact hmay'
  · exact hmay

end TwoLogs

end Lachesis.Filters
