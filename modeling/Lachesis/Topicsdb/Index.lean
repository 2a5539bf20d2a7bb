import Lachesis.Inter.EventSerializer
import Lachesis.Kvdb.Iterator

/-!
# The index of log records

A log is stored under its block number, transaction hash and log index, in three tables: one with a
key for each of its topics that begins with the topic and its position, one with the topics under
the log's own key, and one with the other fields. All parts of a key have a fixed width, so a key
can be taken apart in one way only.
-/

namespace Lachesis

open Lachesis.Core Std

/-- `common.Address`: 20 bytes. -/
abbrev AddressBytes := {bs : Bytes // bs.length = 20}

/-- `types.Log` -/
@[ext]
structure Log where
  address : AddressBytes
  topics : List HashBytes
  data : Bytes
  blockNumber : UInt64
  txHash : HashBytes
  txIndex : UInt64
  blockHash : HashBytes
  index : UInt64
  removed : Bool
  deriving DecidableEq

namespace Topicsdb

def maxCount : ℕ := 0xff

/-- The ways a call of the index ends without a result. -/
inductive Failure
  /-- `ErrTooManyTopics`, which is returned. -/
  | tooManyTopics
  /-- `panic("wrong key type")` -/
  | wrongKeyType
  /-- `log.Crit("inconsistent table.Others")` -/
  | inconsistentOthers
  /-- A slice expression out of range. -/
  | outOfRange
  deriving DecidableEq, Repr

/-! ### Keys -/

/-- `uintToBytes`: eight bytes, most significant first. -/
def uintToBytes (n : UInt64) : Bytes := (leBytes 8 n.toNat).reverse

def bytesToUint (b : Bytes) : UInt64 := .ofNat (leNat b.reverse)

@[simp] lemma length_uintToBytes (n : UInt64) : (uintToBytes n).length = 8 := by
  simp [uintToBytes]

@[simp] lemma bytesToUint_uintToBytes (n : UInt64) : bytesToUint (uintToBytes n) = n := by
  rw [bytesToUint, uintToBytes, List.reverse_reverse, leNat_leBytes (by simpa using n.toNat_lt),
    UInt64.ofNat_toNat]

def posToBytes (pos : UInt8) : Bytes := [pos]

def bytesToPos : Bytes → Except Failure UInt8
  | [] => .error .outOfRange
  | pos :: _ => .ok pos

/-- `ID`: 48 bytes. -/
abbrev ID := {bs : Bytes // bs.length = 48}

namespace ID

/-- `NewID` -/
def new (block : UInt64) (tx : HashBytes) (logIndex : UInt64) : ID :=
  ⟨uintToBytes block ++ tx.val ++ uintToBytes logIndex, by simp [tx.property]⟩

def blockNumber (id : ID) : UInt64 := bytesToUint (id.val.take 8)

def txHash (id : ID) : HashBytes := ⟨(id.val.drop 8).take 32, by simp [id.property]⟩

def index (id : ID) : UInt64 := bytesToUint ((id.val.drop 40).take 8)

variable (block : UInt64) (tx : HashBytes) (logIndex : UInt64)

@[simp] lemma blockNumber_new : (new block tx logIndex).blockNumber = block := by
  simp [blockNumber, new]

@[simp] lemma txHash_new : (new block tx logIndex).txHash = tx := by
  apply Subtype.ext
  simp [txHash, new, tx.property]

@[simp] lemma index_new : (new block tx logIndex).index = logIndex := by
  simp [index, new, tx.property, List.drop_append, List.drop_eq_nil_of_le, List.take_of_length_le]

end ID

def topicKey (topic : HashBytes) (pos : UInt8) (logrec : ID) : Bytes :=
  topic.val ++ posToBytes pos ++ logrec.val

def otherKey (logrec : ID) (pos : UInt8) : Bytes := logrec.val ++ posToBytes pos

def extractLogrecID (key : Bytes) : Except Failure ID :=
  if h : key.length = 81 then .ok ⟨key.drop 33, by simp [h]⟩ else .error .wrongKeyType

def extractTopicPos (key : Bytes) : Except Failure UInt8 :=
  if key.length = 49 then bytesToPos (key.drop 48) else .error .wrongKeyType

lemma length_topicKey (topic : HashBytes) (pos : UInt8) (logrec : ID) :
    (topicKey topic pos logrec).length = 81 := by
  simp [topicKey, posToBytes, topic.property, logrec.property]

@[simp] lemma extractLogrecID_topicKey (topic : HashBytes) (pos : UInt8) (logrec : ID) :
    extractLogrecID (topicKey topic pos logrec) = .ok logrec := by
  rw [extractLogrecID, dif_pos (length_topicKey topic pos logrec)]
  refine congrArg Except.ok (Subtype.ext ?_)
  simp [topicKey, posToBytes, topic.property, List.drop_append]

@[simp] lemma extractTopicPos_otherKey (logrec : ID) (pos : UInt8) :
    extractTopicPos (otherKey logrec pos) = .ok pos := by
  simp [extractTopicPos, otherKey, posToBytes, logrec.property, bytesToPos]

/-- The keys with a topic at a position are found by their beginning. -/
lemma isPrefixOf_topicKey {topic topic' : HashBytes} {pos pos' : UInt8} {logrec : ID} :
    (topic.val ++ posToBytes pos).isPrefixOf (topicKey topic' pos' logrec) ↔
      topic = topic' ∧ pos = pos' := by
  rw [List.isPrefixOf_iff_prefix, topicKey]
  constructor
  · intro h
    have heq := (List.prefix_of_prefix_length_le h (List.prefix_append _ _)
      (by simp [topic.property, topic'.property, posToBytes])).eq_of_length
      (by simp [topic.property, topic'.property, posToBytes])
    obtain ⟨htopic, hpos⟩ := List.append_inj heq (by rw [topic.property, topic'.property])
    exact ⟨Subtype.ext htopic, by simpa [posToBytes] using hpos⟩
  · rintro ⟨rfl, rfl⟩
    exact List.prefix_append _ _

/-- Keys are not shared. -/
lemma topicKey_inj {topic topic' : HashBytes} {pos pos' : UInt8} {logrec logrec' : ID}
    (h : topicKey topic pos logrec = topicKey topic' pos' logrec') :
    topic = topic' ∧ pos = pos' ∧ logrec = logrec' := by
  have hid := congrArg extractLogrecID h
  rw [extractLogrecID_topicKey, extractLogrecID_topicKey] at hid
  have hparts := isPrefixOf_topicKey.mp (h ▸ isPrefixOf_topicKey.mpr ⟨rfl, rfl⟩ :
    (topic.val ++ posToBytes pos).isPrefixOf (topicKey topic' pos' logrec'))
  exact ⟨hparts.1, hparts.2, Except.ok.inj hid⟩

lemma isPrefixOf_otherKey {logrec logrec' : ID} {pos : UInt8} :
    logrec.val.isPrefixOf (otherKey logrec' pos) ↔ logrec = logrec' := by
  rw [List.isPrefixOf_iff_prefix, otherKey]
  constructor
  · intro h
    exact Subtype.ext ((List.prefix_of_prefix_length_le h (List.prefix_append _ _)
      (by rw [logrec.property, logrec'.property])).eq_of_length
      (by rw [logrec.property, logrec'.property]))
  · rintro rfl
    exact List.prefix_append _ _

lemma otherKey_inj {logrec logrec' : ID} {pos pos' : UInt8}
    (h : otherKey logrec pos = otherKey logrec' pos') : logrec = logrec' ∧ pos = pos' := by
  have hpos := congrArg extractTopicPos h
  rw [extractTopicPos_otherKey, extractTopicPos_otherKey] at hpos
  exact ⟨isPrefixOf_otherKey.mp (h ▸ isPrefixOf_otherKey.mpr rfl), Except.ok.inj hpos⟩

/-! ### Tables -/

/-- The tables of `Index`. -/
structure Index where
  /-- `topic+topicN+(blockN+TxHash+logIndex) -> topic_count` -/
  topic : ExtTreeMap Bytes Bytes
  /-- `(blockN+TxHash+logIndex) + topicN -> topic` -/
  other : ExtTreeMap Bytes Bytes
  /-- `(blockN+TxHash+logIndex) -> address, blockHash, data` -/
  logrec : ExtTreeMap Bytes Bytes

end Topicsdb

open Topicsdb

/-- The identifier under which `Push` stores a log. -/
def Log.id (log : Log) : ID := .new log.blockNumber log.txHash log.index

namespace Topicsdb.Index

def empty : Index := ⟨∅, ∅, ∅⟩

/-- One topic in the loop of `Push`. -/
def pushTopic (id : ID) (count : Bytes) (tt : Index) (t : HashBytes × ℕ) : Index where
  topic := tt.topic.insert (topicKey t.1 (.ofNat t.2) id) count
  other := tt.other.insert (otherKey id (.ofNat t.2)) t.1.val
  logrec := tt.logrec

/-- One log in the loop of `Push`. -/
def pushLog (tt : Index) (log : Log) : Index :=
  let tt := log.topics.zipIdx.foldl
    (pushTopic log.id (posToBytes (.ofNat log.topics.length))) tt
  { tt with
    logrec := tt.logrec.insert log.id.val (log.address.val ++ log.blockHash.val ++ log.data) }

/-- `Index.Push`: the tables, and the error if there is one. -/
def push (tt : Index) : List Log → Index × Option Failure
  | [] => (tt, none)
  | log :: recs =>
    if maxCount < log.topics.length then (tt, some .tooManyTopics)
    else push (tt.pushLog log) recs

/-! ### What the tables hold -/

/-- The tables hold exactly these logs. -/
structure Holds (tt : Index) (logs : List Log) : Prop where
  topic : ∀ k v, tt.topic[k]? = some v ↔ ∃ log ∈ logs, ∃ t ∈ log.topics.zipIdx,
    topicKey t.1 (.ofNat t.2) log.id = k ∧ posToBytes (.ofNat log.topics.length) = v
  other : ∀ k v, tt.other[k]? = some v ↔ ∃ log ∈ logs, ∃ t ∈ log.topics.zipIdx,
    otherKey log.id (.ofNat t.2) = k ∧ t.1.val = v
  logrec : ∀ k v, tt.logrec[k]? = some v ↔ ∃ log ∈ logs,
    log.id.val = k ∧ log.address.val ++ log.blockHash.val ++ log.data = v

lemma holds_empty : empty.Holds [] where
  topic k v := by simp [empty]
  other k v := by simp [empty]
  logrec k v := by simp [empty]

lemma getElem?_foldl_insert {β : Type} (key val : β → Bytes) (l : List β)
    (hinj : ∀ x ∈ l, ∀ y ∈ l, key x = key y → val x = val y) (m : ExtTreeMap Bytes Bytes)
    (k v : Bytes) :
    (l.foldl (fun m x => m.insert (key x) (val x)) m)[k]? = some v ↔
      (∃ x ∈ l, key x = k ∧ val x = v) ∨ (∀ x ∈ l, key x ≠ k) ∧ m[k]? = some v := by
  induction l generalizing m with
  | nil => simp
  | cons x l ih =>
    rw [List.foldl_cons, ih fun y hy z hz => hinj y (.tail _ hy) z (.tail _ hz),
      ExtTreeMap.getElem?_insert]
    by_cases hk : key x = k
    · have hval : ∀ y ∈ l, key y = k → val y = val x := fun y hy hy' =>
        hinj y (.tail _ hy) x (.head _) (hy'.trans hk.symm)
      subst hk
      simp only [compare_self, if_true, Option.some.injEq, List.exists_mem_cons_iff, true_and,
        List.forall_mem_cons, ne_eq, not_true_eq_false, false_and, or_false]
      constructor
      · rintro (⟨y, hy, hy', rfl⟩ | ⟨-, rfl⟩)
        · exact .inl (hval y hy hy').symm
        · exact .inl rfl
      · rintro (rfl | ⟨y, hy, hy', rfl⟩)
        · by_cases hl : ∃ y ∈ l, key y = key x
          · obtain ⟨y, hy, hy'⟩ := hl
            exact .inl ⟨y, hy, hy', hval y hy hy'⟩
          · exact .inr ⟨fun y hy hy' => hl ⟨y, hy, hy'⟩, rfl⟩
        · exact .inl ⟨y, hy, hy', rfl⟩
    · simp [hk]

lemma ofNat_pos_inj {log : Log} (hcount : log.topics.length ≤ maxCount)
    {t t' : HashBytes × ℕ} (ht : t ∈ log.topics.zipIdx) (ht' : t' ∈ log.topics.zipIdx)
    (h : UInt8.ofNat t.2 = UInt8.ofNat t'.2) : t = t' := by
  have hlt := List.snd_lt_of_mem_zipIdx ht
  have hlt' := List.snd_lt_of_mem_zipIdx ht'
  rw [maxCount] at hcount
  have hpos : t.2 = t'.2 := by
    have := congrArg UInt8.toNat h
    rwa [UInt8.toNat_ofNat_of_lt' (show _ < 256 by omega),
      UInt8.toNat_ofNat_of_lt' (show _ < 256 by omega)] at this
  rw [List.mem_zipIdx_iff_getElem?] at ht ht'
  rw [hpos, ht'] at ht
  exact Prod.ext (Option.some.inj ht).symm hpos

lemma foldl_pushTopic (id : ID) (count : Bytes) (l : List (HashBytes × ℕ)) (tt : Index) :
    l.foldl (pushTopic id count) tt =
      { topic := l.foldl (fun m t => m.insert (topicKey t.1 (.ofNat t.2) id) count) tt.topic
        other := l.foldl (fun m t => m.insert (otherKey id (.ofNat t.2)) t.1.val) tt.other
        logrec := tt.logrec } := by
  induction l generalizing tt with
  | nil => rfl
  | cons t l ih =>
    rw [List.foldl_cons, ih]
    rfl

/-- A log with an id of its own is added to those held. -/
lemma Holds.pushLog {tt : Index} {logs : List Log} {log : Log} (h : tt.Holds logs)
    (hcount : log.topics.length ≤ maxCount) (hfresh : ∀ log' ∈ logs, log'.id ≠ log.id) :
    (tt.pushLog log).Holds (log :: logs) where
  topic k v := by
    simp only [Index.pushLog, foldl_pushTopic]
    refine (getElem?_foldl_insert (fun t : HashBytes × ℕ => topicKey t.1 (.ofNat t.2) log.id)
      (fun _ => _) _ (fun _ _ _ _ _ => rfl) _ k v).trans ?_
    rw [h.topic, List.exists_mem_cons_iff]
    refine or_congr_right (and_iff_right_of_imp ?_)
    rintro ⟨log', hlog', t', -, rfl, -⟩ t - hkey
    exact hfresh log' hlog' (topicKey_inj hkey).2.2.symm
  other k v := by
    simp only [Index.pushLog, foldl_pushTopic]
    refine (getElem?_foldl_insert (fun t : HashBytes × ℕ => otherKey log.id (.ofNat t.2))
      (fun t => t.1.val) _ (fun t ht t' ht' hkey => by
        rw [ofNat_pos_inj hcount ht ht' (otherKey_inj hkey).2]) _ k v).trans ?_
    rw [h.other, List.exists_mem_cons_iff]
    refine or_congr_right (and_iff_right_of_imp ?_)
    rintro ⟨log', hlog', t', -, rfl, -⟩ t - hkey
    exact hfresh log' hlog' (otherKey_inj hkey).1.symm
  logrec k v := by
    simp only [Index.pushLog, foldl_pushTopic, ExtTreeMap.getElem?_insert,
      List.exists_mem_cons_iff, Std.compare_eq_iff_eq]
    by_cases hk : log.id.val = k
    · have hnone : ¬∃ log' ∈ logs, log'.id.val = k ∧
          log'.address.val ++ log'.blockHash.val ++ log'.data = v := by
        rintro ⟨log', hlog', hk', -⟩
        exact hfresh log' hlog' (Subtype.ext (hk'.trans hk.symm))
      rw [if_pos hk, Option.some.injEq, or_iff_left hnone, and_iff_right hk]
    · rw [if_neg hk, h.logrec, or_iff_right fun h' => hk h'.1]

lemma Holds.of_mem_iff {tt : Index} {logs logs' : List Log} (h : tt.Holds logs)
    (hmem : ∀ log, log ∈ logs ↔ log ∈ logs') : tt.Holds logs' where
  topic k v := by simp only [h.topic, hmem]
  other k v := by simp only [h.other, hmem]
  logrec k v := by simp only [h.logrec, hmem]

/-- After `Push` the index holds all logs. -/
lemma Holds.push {tt : Index} {done logs : List Log} (h : tt.Holds done)
    (hids : ((done ++ logs).map Log.id).Nodup)
    (hcount : ∀ log ∈ logs, log.topics.length ≤ maxCount) :
    ∃ tt', tt.push logs = (tt', none) ∧ tt'.Holds (done ++ logs) := by
  induction logs generalizing tt done with
  | nil => exact ⟨tt, rfl, by simpa using h⟩
  | cons log logs ih =>
    have hle := hcount log (.head _)
    have hperm : (done ++ log :: logs).Perm (log :: done ++ logs) := List.perm_middle
    have hids' := (hperm.map Log.id).nodup_iff.mp hids
    have hfresh : ∀ log' ∈ done, log'.id ≠ log.id := by
      intro log' hlog' heq
      rw [List.cons_append, List.map_cons, List.nodup_cons] at hids'
      exact hids'.1 (heq ▸ List.mem_map_of_mem (List.mem_append_left _ hlog'))
    obtain ⟨tt', hpush, hholds⟩ := ih (h.pushLog hle hfresh) hids' fun log' hlog' =>
      hcount log' (.tail _ hlog')
    refine ⟨tt', ?_, hholds.of_mem_iff fun log' => hperm.mem_iff.symm⟩
    rw [Index.push, if_neg (by omega)]
    exact hpush

/-- `Push` of logs with different identifiers into an empty database. -/
theorem push_holds {logs : List Log} (hids : (logs.map Log.id).Nodup)
    (hcount : ∀ log ∈ logs, log.topics.length ≤ maxCount) :
    ∃ tt, empty.push logs = (tt, none) ∧ tt.Holds logs :=
  holds_empty.push hids hcount

end Topicsdb.Index

end Lachesis
