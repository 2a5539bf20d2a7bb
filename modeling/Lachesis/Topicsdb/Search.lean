import Lachesis.Core.Run
import Lachesis.Topicsdb.Index

/-!
# Searching for logs

A query gives alternatives for the first topics of a log; a position without alternatives is a
wildcard. For every alternative the table of topics is scanned, and the hits of a log are counted
against the number of positions. A log whose hits and wildcards make up that number is fetched.

Hits are counted, not positions: an alternative that is given twice counts twice.
-/

namespace Lachesis.Topicsdb

open Lachesis.Core Std

/-- The order in which a map is gone through. -/
structure MapOrder (α : Type) where
  list : List α → List α
  perm : ∀ l, (list l).Perm l

/-- The pairs of a table whose keys begin with `pre`, as `NewIteratorWithPrefix` yields them. -/
def withPrefix (t : ExtTreeMap Bytes Bytes) (pre : Bytes) : List (Bytes × Bytes) :=
  t.toList.filter fun kv => pre.isPrefixOf kv.1

/-! ### Records -/

/-- `logrecBuilder` without its channels. -/
structure LogrecBuilder where
  log : Log
  id : ID
  conditions : UInt8
  topicsCount : UInt8
  deriving DecidableEq

namespace LogrecBuilder

/-- `newLogrecBuilder` -/
def new (logrec : ID) (conditions topicCount : UInt8) : LogrecBuilder where
  log :=
    { address := ⟨List.replicate 20 0, rfl⟩
      topics := List.replicate topicCount.toNat HashBytes.zero
      data := []
      blockNumber := logrec.blockNumber
      txHash := logrec.txHash
      txIndex := 0
      blockHash := HashBytes.zero
      index := logrec.index
      removed := false }
  id := logrec
  conditions
  topicsCount := topicCount

/-- `logrecBuilder.MatchedWith` without the send. -/
def matchedWith (r : LogrecBuilder) (count : UInt8) : LogrecBuilder :=
  { r with conditions := if count < r.conditions then r.conditions - count else 0 }

def isMatched (r : LogrecBuilder) : Bool := r.conditions = 0

def setOtherTopic (r : LogrecBuilder) (pos : UInt8) (topic : HashBytes) :
    Except Failure LogrecBuilder :=
  if r.topicsCount ≤ pos then .error .inconsistentOthers
  else match r.log.topics[pos.toNat]? with
    | none => .error .outOfRange
    | some old =>
      if old ≠ HashBytes.zero then .ok r
      else .ok { r with log := { r.log with topics := r.log.topics.set pos.toNat topic } }

/-- One pair in the loop of `logrecBuilder.Fetch`. -/
def fetchOther (r : LogrecBuilder) (kv : Bytes × Bytes) : Except Failure LogrecBuilder := do
  let pos ← extractTopicPos kv.1
  r.setOtherTopic pos (.setBytes kv.2)

/-- The fields that `logrecBuilder.Fetch` reads from the table of records. -/
def fetchFields (r : LogrecBuilder) (buf : Bytes) : Except Failure LogrecBuilder :=
  if h : 52 ≤ buf.length then
    .ok { r with
      log := { r.log with
        address := ⟨buf.take 20, by rw [List.length_take]; omega⟩
        blockHash := ⟨(buf.drop 20).take 32, by rw [List.length_take, List.length_drop]; omega⟩
        data := buf.drop 52 } }
  else .error .outOfRange

/-- `logrecBuilder.Fetch`; a record that is missing is read as no bytes. -/
def fetch (tt : Index) (r : LogrecBuilder) : Except Failure LogrecBuilder := do
  let r ← (withPrefix tt.other r.id.val).foldlM fetchOther r
  r.fetchFields (tt.logrec[r.id.val]?.getD [])

end LogrecBuilder

/-! ### The search -/

/-- A key of the table of topics that a search meets: the log and the number of its topics. -/
structure Hit where
  id : ID
  topicCount : UInt8
  deriving DecidableEq

/-- What the innermost loop reads of a pair. -/
def Hit.read (kv : Bytes × Bytes) : Except Failure Hit := do
  let id ← extractLogrecID kv.1
  let topicCount ← bytesToPos kv.2
  return ⟨id, topicCount⟩

/-- The alternatives of a query with their positions, in the order of the outer loops. -/
def alternatives (topics : List (List HashBytes)) : List (HashBytes × ℕ) :=
  topics.zipIdx.flatMap fun (cond, pos) => cond.map (·, pos)

/-- The number of positions without alternatives. -/
def wildcards (topics : List (List HashBytes)) : UInt8 := .ofNat (topics.countP List.isEmpty)

abbrev Recs := ExtTreeMap Bytes LogrecBuilder

/-- A hit: the record of the log is made if it is the first one, and counts down. -/
def collect (condCount : UInt8) (recs : Recs) (hit : Hit) : Recs :=
  let r := recs[hit.id.val]?.getD (.new hit.id condCount hit.topicCount)
  recs.insert hit.id.val (r.matchedWith 1)

namespace Index

def hitsOf (tt : Index) (alternative : HashBytes × ℕ) : Except Failure (List Hit) :=
  (withPrefix tt.topic (alternative.1.val ++ posToBytes (.ofNat alternative.2))).mapM Hit.read

/-- The hits of all scans, in their order. -/
def hits (tt : Index) (topics : List (List HashBytes)) : Except Failure (List Hit) := do
  let scans ← (alternatives topics).mapM tt.hitsOf
  return scans.flatten

/-- One record in the last loop of `fetchSync`. -/
def fetchMatched (tt : Index) (wildcards : UInt8) (res : List Log) (r : LogrecBuilder) :
    Except Failure (List Log) :=
  let r := r.matchedWith wildcards
  if r.isMatched then (r.fetch tt).map fun r => res ++ [r.log] else .ok res

def fetchSync (tt : Index) (order : MapOrder LogrecBuilder) (topics : List (List HashBytes)) :
    Except Failure (List Log) := do
  if maxCount < topics.length then .error .tooManyTopics
  else
    let recs := (← tt.hits topics).foldl (collect (.ofNat topics.length)) ∅
    (order.list (recs.toList.map (·.2))).foldlM (tt.fetchMatched (wildcards topics)) []

end Index

/-! ### Counting hits -/

namespace LogrecBuilder

lemma matchedWith_eq (r : LogrecBuilder) (count : UInt8) :
    r.matchedWith count = { r with conditions := .ofNat (r.conditions.toNat - count.toNat) } := by
  have hconditions : (if count < r.conditions then r.conditions - count else 0) =
      UInt8.ofNat (r.conditions.toNat - count.toNat) := by
    split
    · rename_i hlt
      rw [← UInt8.toNat_sub_of_le _ _ (UInt8.le_of_lt hlt), UInt8.ofNat_toNat]
    · rename_i hge
      rw [UInt8.not_lt, UInt8.le_iff_toNat_le] at hge
      rw [Nat.sub_eq_zero_of_le hge]
      rfl
  rw [matchedWith, hconditions]

/-- The record of a log after `n` hits. -/
def hitTimes (id : ID) (condCount topicCount : UInt8) (n : ℕ) : LogrecBuilder :=
  { new id condCount topicCount with conditions := .ofNat (condCount.toNat - n) }

lemma toNat_conditions_hitTimes (id : ID) (condCount topicCount : UInt8) (n : ℕ) :
    (hitTimes id condCount topicCount n).conditions.toNat = condCount.toNat - n := by
  have := condCount.toNat_lt
  exact UInt8.toNat_ofNat_of_lt' (show _ < 256 by omega)

/-- `MatchedWith` counts hits. -/
lemma matchedWith_hitTimes (id : ID) (condCount topicCount count : UInt8) (n : ℕ) :
    (hitTimes id condCount topicCount n).matchedWith count =
      hitTimes id condCount topicCount (n + count.toNat) := by
  rw [matchedWith_eq, toNat_conditions_hitTimes, Nat.sub_sub]
  rfl

lemma isMatched_hitTimes {id : ID} {condCount topicCount : UInt8} {n : ℕ} :
    (hitTimes id condCount topicCount n).isMatched ↔ condCount.toNat ≤ n := by
  rw [isMatched, decide_eq_true_iff, ← UInt8.toNat_inj, toNat_conditions_hitTimes]
  exact Nat.sub_eq_zero_iff_le

end LogrecBuilder

open LogrecBuilder

/-- A record is made at the first hit and counts the others. -/
lemma getElem?_collect (condCount : UInt8) (hits : List Hit) (id : ID) :
    (hits.foldl (collect condCount) ∅)[id.val]? = (hits.find? fun hit => hit.id = id).map
      fun hit => hitTimes id condCount hit.topicCount (hits.countP fun hit => hit.id = id) := by
  induction hits using List.reverseRecOn with
  | nil => simp
  | append_singleton hits hit ih =>
    rw [List.foldl_append, List.foldl_cons, List.foldl_nil, collect, ExtTreeMap.getElem?_insert,
      List.find?_append, List.countP_append]
    simp only [Std.compare_eq_iff_eq, ← Subtype.ext_iff]
    by_cases hid : hit.id = id
    · subst hid
      rw [if_pos rfl, ih]
      cases hfind : hits.find? fun h => h.id = hit.id with
      | none =>
        have hzero : hits.countP (fun h => h.id = hit.id) = 0 := by
          rw [List.countP_eq_zero]
          exact List.find?_eq_none.mp hfind
        have hfirst : (LogrecBuilder.new hit.id condCount hit.topicCount) =
            hitTimes hit.id condCount hit.topicCount 0 := by
          simp [hitTimes, LogrecBuilder.new]
        simp [hzero, hfirst, matchedWith_hitTimes]
      | some first => simp [matchedWith_hitTimes]
    · rw [if_neg hid, ih]
      simp [hid]

def collected (condCount : UInt8) (hits : List Hit) : List LogrecBuilder :=
  (hits.foldl (collect condCount) ∅).toList.map (·.2)

lemma key_collect {condCount : UInt8} {hits : List Hit} {k : Bytes} {r : LogrecBuilder}
    (h : (hits.foldl (collect condCount) ∅)[k]? = some r) : k = r.id.val := by
  induction hits using List.reverseRecOn generalizing k r with
  | nil => simp at h
  | append_singleton hits hit ih =>
    rw [List.foldl_append, List.foldl_cons, List.foldl_nil, collect,
      ExtTreeMap.getElem?_insert] at h
    split at h
    · rename_i heq
      rw [Std.compare_eq_iff_eq] at heq
      cases h
      rw [matchedWith, ← heq]
      cases hr : (hits.foldl (collect condCount) ∅)[hit.id.val]? with
      | none => rfl
      | some r =>
        have hkey : hit.id.val = r.id.val := ih hr
        exact hkey
    · exact ih h

lemma mem_collected {condCount : UInt8} {hits : List Hit} {r : LogrecBuilder} :
    r ∈ collected condCount hits ↔ ∃ hit, (hits.find? fun h => h.id = hit.id) = some hit ∧
      r = hitTimes hit.id condCount hit.topicCount (hits.countP fun h => h.id = hit.id) := by
  simp only [collected, List.mem_map, Prod.exists, exists_eq_right,
    ExtTreeMap.mem_toList_iff_getElem?_eq_some]
  constructor
  · rintro ⟨k, hk⟩
    have hkey := key_collect hk
    rw [hkey, getElem?_collect] at hk
    obtain ⟨hit, hfind, hr⟩ := Option.map_eq_some_iff.mp hk
    have hid : hit.id = r.id := by simpa using List.find?_some hfind
    exact ⟨hit, hid ▸ hfind, by rw [hid]; exact hr.symm⟩
  · rintro ⟨hit, hfind, rfl⟩
    exact ⟨hit.id.val, by rw [getElem?_collect, hfind]; rfl⟩

/-- No log is found twice. -/
lemma nodup_collected (condCount : UInt8) (hits : List Hit) :
    ((collected condCount hits).map (·.id)).Nodup := by
  rw [collected, List.map_map, List.Nodup, List.pairwise_map]
  refine List.Pairwise.imp_of_mem ?_ (hits.foldl (collect condCount) ∅).ordered_keys_toList
  rintro ⟨k, r⟩ ⟨k', r'⟩ hr hr' hlt heq
  rw [ExtTreeMap.mem_toList_iff_getElem?_eq_some] at hr hr'
  rw [key_collect hr, key_collect hr', show r.id = r'.id from heq, compare_self] at hlt
  cases hlt

/-! ### The outcome of a search -/

/-- The last loop counts the wildcards and asks whether that is enough. -/
def LogrecBuilder.found (wildcards : UInt8) (r : LogrecBuilder) : Bool :=
  (r.matchedWith wildcards).isMatched

/-- What is fetched for a record. -/
def LogrecBuilder.fetchLog (tt : Index) (wildcards : UInt8) (r : LogrecBuilder) :
    Except Failure Log :=
  ((r.matchedWith wildcards).fetch tt).map (·.log)

namespace Index

variable {tt : Index} {order : MapOrder LogrecBuilder} {topics : List (List HashBytes)}

lemma fetchMatched_eq (wildcards : UInt8) (res : List Log) (r : LogrecBuilder) :
    tt.fetchMatched wildcards res r = if r.found wildcards then
      (r.fetchLog tt wildcards).map fun log => res ++ [log] else .ok res := by
  simp only [fetchMatched, found, fetchLog]
  cases (r.matchedWith wildcards).fetch tt <;> rfl

lemma foldlM_fetchMatched_eq_ok_iff {wildcards : UInt8} {l : List LogrecBuilder}
    {acc res : List Log} : l.foldlM (tt.fetchMatched wildcards) acc = .ok res ↔
      ∃ logs, (l.filter (found wildcards)).map (fetchLog tt wildcards) = logs.map .ok ∧
        res = acc ++ logs := by
  induction l generalizing acc with
  | nil =>
    simp only [List.foldlM_nil, List.filter_nil, List.map_nil, List.nil_eq, List.map_eq_nil_iff,
      exists_eq_left, List.append_nil]
    exact ⟨fun h => (Except.ok.inj h).symm, fun h => congrArg Except.ok h.symm⟩
  | cons r l ih =>
    rw [List.foldlM_cons, fetchMatched_eq]
    cases hfound : r.found wildcards with
    | false =>
      rw [List.filter_cons_of_neg (by simp [hfound])]
      exact ih
    | true =>
      rw [List.filter_cons_of_pos hfound, List.map_cons, if_pos rfl]
      cases hlog : r.fetchLog tt wildcards with
      | error e =>
        constructor
        · intro h
          cases h
        · rintro ⟨_ | ⟨log, logs⟩, h, -⟩ <;> cases h
      | ok log =>
        refine ih.trans ⟨?_, ?_⟩
        · rintro ⟨logs, hlogs, rfl⟩
          exact ⟨log :: logs, by rw [hlogs, List.map_cons], by simp⟩
        · rintro ⟨_ | ⟨log', logs⟩, hlogs, rfl⟩
          · cases hlogs
          · rw [List.map_cons, List.cons.injEq] at hlogs
            obtain ⟨hhead, hlogs⟩ := hlogs
            cases hhead
            exact ⟨logs, hlogs, by simp⟩

/-- The found records are fetched in the order of the map. -/
lemma fetchSync_eq_ok_iff {res : List Log} : tt.fetchSync order topics = .ok res ↔
    topics.length ≤ maxCount ∧ ∃ hits, tt.hits topics = .ok hits ∧
      ((order.list (collected (.ofNat topics.length) hits)).filter
        (found (wildcards topics))).map (fetchLog tt (wildcards topics)) = res.map .ok := by
  unfold fetchSync
  split
  · rename_i hlt
    simp [hlt]
  · rename_i hle
    rw [Nat.not_lt] at hle
    simp only [bind, bind_eq_ok_iff, hle, true_and]
    refine exists_congr fun hits => and_congr_right fun _ => ?_
    rw [← collected, foldlM_fetchMatched_eq_ok_iff]
    simp

end Index

end Lachesis.Topicsdb
