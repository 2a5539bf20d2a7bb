import Lachesis.Core.Handoff
import Lachesis.Topicsdb.Exactness

/-!
# Searching with goroutines

`fetchAsync` scans as `fetchSync` does, but each record gets a goroutine that waits for a message on
`rec.ok`, fetches the fields of the log and hands over the outcome on `rec.ready`. A record sends
whenever a hit finds its conditions used up, and once more in the last loop. The channel has room
for one message and the goroutine receives once, so the third send on a record blocks for good. It
takes place exactly if a log is hit by more scans than the query has positions.
-/

namespace Lachesis.Topicsdb

open Lachesis.Core Std

/-! ### The caller and the goroutines -/

/-- Where the goroutine of `StartFetch` is. -/
inductive Routine
  /-- At the receive from `rec.ok`. -/
  | waiting
  | fetching
  /-- At the send to `rec.ready`; `failed` if `Fetch` returned an error. -/
  | sending (failed : Bool)
  /-- Returned; `rec.ready` is closed. -/
  | done
  deriving DecidableEq

/-- `logrecBuilder` after `StartFetch`: `ok` tells whether the channel holds a message. -/
structure AsyncBuilder extends LogrecBuilder where
  ok : Bool
  routine : Routine

namespace AsyncBuilder

/-- `newLogrecBuilder` and `StartFetch` -/
def start (logrec : ID) (conditions topicCount : UInt8) : AsyncBuilder where
  toLogrecBuilder := .new logrec conditions topicCount
  ok := false
  routine := .waiting

/-- `MatchedWith` up to the send. -/
def count (r : AsyncBuilder) (count : UInt8) : AsyncBuilder :=
  { r with toLogrecBuilder := r.toLogrecBuilder.matchedWith count }

/-- `MatchedWith` comes to the send. -/
def sends (r : AsyncBuilder) (count : UInt8) : Bool := ¬ count < r.conditions

end AsyncBuilder

/-- Where the caller is. -/
inductive Caller
  /-- At the head of the loops over the alternatives, with the pairs that are still to come. -/
  | scanning (pairs : List (Bytes × Bytes))
  /-- At the send in `MatchedWith(1)`. -/
  | matching (id : ID) (pairs : List (Bytes × Bytes))
  /-- At the head of the loop over the records. -/
  | finishing (ids : List ID) (res : List Log)
  /-- At the send in `MatchedWith(wildcards)`. -/
  | matchingAll (id : ID) (ids : List ID) (res : List Log)
  /-- At the receive in `Build`. -/
  | building (id : ID) (ids : List ID) (res : List Log)
  /-- Back from `fetchAsync`; `none` with an error. -/
  | returned (res : Option (List Log))
  | crashed (e : Failure)

/-- A state of `fetchAsync`. -/
structure Search where
  caller : Caller
  recs : ExtTreeMap Bytes AsyncBuilder

/-- The pairs that the scans of a query go through. -/
def Index.pairs (tt : Index) (topics : List (List HashBytes)) : List (Bytes × Bytes) :=
  (alternatives topics).flatMap fun a =>
    withPrefix tt.topic (a.1.val ++ posToBytes (.ofNat a.2))

namespace Search

/-- The call of `fetchAsync`. -/
def start (tt : Index) (topics : List (List HashBytes)) : Search where
  caller := if maxCount < topics.length then .returned none else .scanning (tt.pairs topics)
  recs := ∅

def isOver (s : Search) : Bool :=
  match s.caller with
  | .returned _ | .crashed _ => true
  | _ => false

/-- After `MatchedWith(wildcards)`: `Build` if the record is matched. -/
def afterMatched (r : AsyncBuilder) (id : ID) (ids : List ID) (res : List Log) : Caller :=
  if r.isMatched then .building id ids res else .finishing ids res

/-- The next step of the caller, if it does not block. -/
def call (order : MapOrder ID) (condCount wildcards : UInt8) (s : Search) : Option Search :=
  match s.caller with
  | .scanning [] =>
    some { s with caller := .finishing (order.list (s.recs.toList.map (·.2.id))) [] }
  | .scanning (kv :: kvs) =>
    match Hit.read kv with
    | .error e => some { s with caller := .crashed e }
    | .ok hit =>
      let r := s.recs[hit.id.val]?.getD (.start hit.id condCount hit.topicCount)
      some
        { caller := if r.sends 1 then .matching hit.id kvs else .scanning kvs
          recs := s.recs.insert hit.id.val (r.count 1) }
  | .matching id kvs => do
    let r ← s.recs[id.val]?
    guard (r.ok = false)
    return { caller := .scanning kvs, recs := s.recs.insert id.val { r with ok := true } }
  | .finishing [] res => some { s with caller := .returned (some res) }
  | .finishing (id :: ids) res => do
    let r ← s.recs[id.val]?
    let recs := s.recs.insert id.val (r.count wildcards)
    if r.sends wildcards then return { caller := .matchingAll id ids res, recs }
    else return { caller := afterMatched (r.count wildcards) id ids res, recs }
  | .matchingAll id ids res => do
    let r ← s.recs[id.val]?
    guard (r.ok = false)
    let recs := s.recs.insert id.val { r with ok := true }
    return { caller := afterMatched r id ids res, recs }
  | .building id ids res => do
    let r ← s.recs[id.val]?
    let recs := s.recs.insert id.val { r with routine := .done }
    match r.routine with
    | .sending false => return { caller := .finishing ids (res ++ [r.log]), recs }
    | .sending true => return { caller := .returned none, recs }
    -- The channel is closed: `Build` returns no log.
    | .done => return { caller := .finishing ids res, recs }
    | .waiting | .fetching => none
  | .returned _ | .crashed _ => none

/-- The next step of a goroutine, if it does not block. -/
def routine (tt : Index) (id : ID) (s : Search) : Option Search := do
  guard (s.isOver = false)
  let r ← s.recs[id.val]?
  match r.routine with
  | .waiting =>
    guard (r.ok = true)
    return { s with recs := s.recs.insert id.val { r with ok := false, routine := .fetching } }
  | .fetching =>
    match r.fetch tt with
    | .ok b =>
      let r := { r with toLogrecBuilder := b, routine := .sending false }
      return { s with recs := s.recs.insert id.val r }
    | .error e => return { s with caller := .crashed e }
  | .sending _ | .done => none

/-- The database fails while the caller scans. -/
def scanFails (s : Search) : Option Search :=
  match s.caller with
  | .scanning _ => some { s with caller := .returned none }
  | _ => none

/-- The database fails while a goroutine fetches. -/
def fetchFails (id : ID) (s : Search) : Option Search := do
  guard (s.isOver = false)
  let r ← s.recs[id.val]?
  guard (r.routine = .fetching)
  return { s with recs := s.recs.insert id.val { r with routine := .sending true } }

/-- Who takes the next step. -/
inductive Action
  | call
  | routine (id : ID)
  | scanFails
  | fetchFails (id : ID)

/-- The database fails in this step. -/
def Action.fails : Action → Bool
  | .call | .routine _ => false
  | .scanFails | .fetchFails _ => true

/-- A step of `fetchAsync`. -/
def next (tt : Index) (order : MapOrder ID) (topics : List (List HashBytes)) (s : Search) :
    Action → Option Search
  | .call => s.call order (.ofNat topics.length) (wildcards topics)
  | .routine id => s.routine tt id
  | .scanFails => s.scanFails
  | .fetchFails id => s.fetchFails id

/-- Any step, with errors of the database only if it may fail. -/
def Step (tt : Index) (order : MapOrder ID) (topics : List (List HashBytes)) (failing : Bool)
    (s t : Search) : Prop :=
  ∃ a : Action, (a.fails → failing) ∧ s.next tt order topics a = some t

end Search

/-! ### Records and hits -/

namespace LogrecBuilder

lemma fetchOther_conditions (r : LogrecBuilder) (kv : Bytes × Bytes) (n : UInt8) :
    fetchOther { r with conditions := n } kv =
      (fetchOther r kv).map fun b => { b with conditions := n } := by
  unfold fetchOther
  cases extractTopicPos kv.1 with
  | error e => rfl
  | ok pos =>
    simp only [bind, Except.bind, setOtherTopic]
    split
    · rfl
    · split
      · rfl
      · split <;> rfl

lemma fetch_conditions (tt : Index) (r : LogrecBuilder) (n : UInt8) :
    fetch tt { r with conditions := n } =
      (fetch tt r).map fun b => { b with conditions := n } := by
  have hfold : ∀ l : List (Bytes × Bytes), l.foldlM fetchOther { r with conditions := n } =
      (l.foldlM fetchOther r).map fun b => { b with conditions := n } := by
    intro l
    induction l generalizing r with
    | nil => rfl
    | cons kv l ih =>
      rw [List.foldlM_cons, List.foldlM_cons, fetchOther_conditions]
      cases fetchOther r kv with
      | error e => rfl
      | ok b => exact ih b
  simp only [fetch, hfold]
  cases (withPrefix tt.other r.id.val).foldlM fetchOther r with
  | error e => rfl
  | ok b =>
    simp only [bind, Except.bind, Except.map, fetchFields]
    split <;> rfl

lemma fetchLog_eq (tt : Index) (wildcards : UInt8) (r : LogrecBuilder) :
    r.fetchLog tt wildcards = (r.fetch tt).map (·.log) := by
  rw [fetchLog, matchedWith, fetch_conditions]
  cases r.fetch tt <;> rfl

lemma fetchOther_keeps {r b : LogrecBuilder} {kv : Bytes × Bytes} (h : fetchOther r kv = .ok b) :
    b = { r with log := b.log } := by
  unfold fetchOther at h
  obtain ⟨pos, -, hset⟩ := bind_eq_ok_iff.mp h
  unfold setOtherTopic at hset
  split at hset
  · cases hset
  · split at hset
    · cases hset
    · split at hset <;> cases hset <;> rfl

lemma fetchFields_keeps {r b : LogrecBuilder} {buf : Bytes} (h : r.fetchFields buf = .ok b) :
    b = { r with log := b.log } := by
  unfold fetchFields at h
  split at h <;> cases h
  rfl

/-- `Fetch` fills in the log and nothing else. -/
lemma fetch_keeps {tt : Index} {r b : LogrecBuilder} (h : fetch tt r = .ok b) :
    b = { r with log := b.log } := by
  have hfold : ∀ {l : List (Bytes × Bytes)} {b : LogrecBuilder},
      l.foldlM fetchOther r = .ok b → b = { r with log := b.log } := by
    intro l
    induction l using List.reverseRecOn with
    | nil =>
      intro b hb
      cases hb
      rfl
    | append_singleton l kv ih =>
      intro b hb
      rw [List.foldlM_append] at hb
      obtain ⟨b', hb', hkv⟩ := bind_eq_ok_iff.mp hb
      rw [List.foldlM_cons] at hkv
      obtain ⟨b'', hkv, hnil⟩ := bind_eq_ok_iff.mp hkv
      cases hnil
      rw [fetchOther_keeps hkv, ih hb']
  obtain ⟨b', hb', hfields⟩ := bind_eq_ok_iff.mp h
  rw [fetchFields_keeps hfields, hfold hb']

end LogrecBuilder

open LogrecBuilder (hitTimes matchedWith_hitTimes isMatched_hitTimes)
open Handoff

/-- The number of hits on a log. -/
abbrev hitsOn (hits : List Hit) (id : ID) : ℕ := hits.countP fun hit => hit.id = id

/-- The record of a log after all hits. -/
def finalRecord (condCount : UInt8) (hits : List Hit) (id : ID) : LogrecBuilder :=
  hitTimes id condCount
    (((hits.find? fun hit => hit.id = id).map (·.topicCount)).getD 0) (hitsOn hits id)

/-- The logs that were hit, in the order of their keys. -/
def hitIds (condCount : UInt8) (hits : List Hit) : List ID :=
  (collected condCount hits).map (·.id)

section Hits

variable {condCount w : UInt8} {hits : List Hit} {id : ID}

lemma map_finalRecord (condCount : UInt8) (hits : List Hit) :
    (hitIds condCount hits).map (finalRecord condCount hits) = collected condCount hits := by
  rw [hitIds, List.map_map]
  refine (List.map_congr_left fun r hr => ?_).trans (List.map_id _)
  obtain ⟨hit, hfind, rfl⟩ := mem_collected.mp hr
  change finalRecord condCount hits hit.id = _
  rw [finalRecord, hfind]
  rfl

lemma mem_hitIds : id ∈ hitIds condCount hits ↔ hitsOn hits id ≠ 0 := by
  rw [hitIds, List.mem_map, hitsOn, ← Nat.pos_iff_ne_zero, List.countP_pos_iff]
  constructor
  · rintro ⟨r, hr, rfl⟩
    obtain ⟨hit, hfind, rfl⟩ := mem_collected.mp hr
    exact ⟨hit, List.mem_of_find?_eq_some hfind, by simp [hitTimes, LogrecBuilder.new]⟩
  · rintro ⟨hit, hhit, hid⟩
    obtain ⟨first, hfirst⟩ := Option.isSome_iff_exists.mp
      (List.find?_isSome (p := fun hit => hit.id = id).mpr ⟨hit, hhit, hid⟩)
    have hfid : first.id = id := by simpa using List.find?_some hfirst
    exact ⟨_, mem_collected.mpr ⟨first, hfid ▸ hfirst, rfl⟩, hfid⟩

lemma found_finalRecord :
    (finalRecord condCount hits id).found w ↔ condCount.toNat ≤ hitsOn hits id + w.toNat := by
  rw [LogrecBuilder.found, finalRecord, matchedWith_hitTimes, isMatched_hitTimes]

end Hits

/-! ### The operations of the caller -/

/-- The sends of the scans: a hit sends if the conditions are used up with it. -/
def scanOps (condCount : UInt8) (before : List Hit) : List Hit → List (Op ID)
  | [] => []
  | hit :: hits =>
    (if condCount.toNat ≤ hitsOn (before ++ [hit]) hit.id then [.post hit.id] else []) ++
      scanOps condCount (before ++ [hit]) hits

/-- The operations of the last loop: a send and a receive for each record that is found. -/
def finishOps (condCount w : UInt8) (hits : List Hit) (ids : List ID) : List (Op ID) :=
  ids.flatMap fun id =>
    if (finalRecord condCount hits id).found w then [.post id, .join id] else []

/-- The operations of a search. -/
def searchOps (order : MapOrder ID) (condCount w : UInt8) (hits : List Hit) : List (Op ID) :=
  scanOps condCount [] hits ++
    finishOps condCount w hits (order.list (hitIds condCount hits))

section Ops

variable {order : MapOrder ID} {condCount w : UInt8} {hits : List Hit} {id : ID}

lemma paired_scanOps (condCount : UInt8) (before hits : List Hit) :
    Paired (scanOps condCount before hits) := by
  induction hits generalizing before with
  | nil => exact .nil
  | cons hit hits ih =>
    rw [scanOps]
    split
    · exact .post _ (ih _)
    · exact ih _

lemma paired_searchOps : Paired (searchOps order condCount w hits) := by
  refine (paired_scanOps ..).append (Paired.flatMap (fun id => ?_) _)
  split
  · exact .call _ .nil
  · exact .nil

lemma count_post_scanOps (condCount : UInt8) (before hits : List Hit) (id : ID) :
    (scanOps condCount before hits).count (.post id) =
      (hitsOn (before ++ hits) id + 1 - condCount.toNat) -
        (hitsOn before id + 1 - condCount.toNat) := by
  induction hits generalizing before with
  | nil => simp [scanOps]
  | cons hit hits ih =>
    have hall : hitsOn (before ++ [hit] ++ hits) id = hitsOn (before ++ hit :: hits) id := by simp
    have hle : hitsOn (before ++ [hit]) id ≤ hitsOn (before ++ hit :: hits) id := by
      rw [← hall]
      exact (List.sublist_append_left ..).countP_le
    rw [scanOps, List.count_append, ih, hall]
    by_cases hid : hit.id = id
    · subst hid
      have hsucc : hitsOn (before ++ [hit]) hit.id = hitsOn before hit.id + 1 := by simp
      rw [hsucc] at hle ⊢
      split
      · rw [List.count_cons_self, List.count_nil]
        omega
      · rw [List.count_nil]
        omega
    · have hsame : hitsOn (before ++ [hit]) id = hitsOn before id := by simp [hid]
      rw [hsame]
      split <;> simp [hid]

lemma count_join_scanOps (condCount : UInt8) (before hits : List Hit) (id : ID) :
    (scanOps condCount before hits).count (.join id) = 0 := by
  induction hits generalizing before with
  | nil => rfl
  | cons hit hits ih =>
    rw [scanOps, List.count_append, ih]
    split <;> simp

lemma count_finishOps {op : ID → Op ID} (hop : op = .post ∨ op = .join) (ids : List ID) :
    (finishOps condCount w hits ids).count (op id) =
      if (finalRecord condCount hits id).found w then ids.count id else 0 := by
  induction ids with
  | nil => simp [finishOps]
  | cons id' ids ih =>
    rw [finishOps, List.flatMap_cons, List.count_append, ← finishOps, ih]
    by_cases hid : id' = id
    · subst hid
      rcases hop with rfl | rfl <;> split <;> simp [Nat.add_comm]
    · rw [List.count_cons_of_ne hid]
      rcases hop with rfl | rfl <;> split <;> simp [hid]

lemma nodup_order (order : MapOrder ID) (condCount : UInt8) (hits : List Hit) :
    (order.list (hitIds condCount hits)).Nodup :=
  (order.perm _).nodup_iff.mpr (nodup_collected condCount hits)

lemma mem_order : id ∈ order.list (hitIds condCount hits) ↔ hitsOn hits id ≠ 0 :=
  (order.perm _).mem_iff.trans mem_hitIds

lemma count_join_le_one : (searchOps order condCount w hits).count (.join id) ≤ 1 := by
  rw [searchOps, List.count_append, count_join_scanOps, count_finishOps (.inr rfl)]
  have := List.nodup_iff_count_le_one.mp (nodup_order order condCount hits) id
  split <;> omega

lemma count_post_searchOps : (searchOps order condCount w hits).count (.post id) =
    (hitsOn hits id + 1 - condCount.toNat) - (1 - condCount.toNat) +
      if (finalRecord condCount hits id).found w then
        (order.list (hitIds condCount hits)).count id else 0 := by
  rw [searchOps, List.count_append, count_post_scanOps, count_finishOps (.inl rfl),
    List.nil_append, show hitsOn [] id = 0 from rfl, Nat.zero_add]

lemma count_post_le_two (hfits : hitsOn hits id ≤ condCount.toNat) :
    (searchOps order condCount w hits).count (.post id) ≤ 2 := by
  rw [count_post_searchOps]
  have := List.nodup_iff_count_le_one.mp (nodup_order order condCount hits) id
  split <;> omega

/-- A log that is hit more often than there are positions sends three times. -/
lemma two_lt_count_post (hpos : 0 < condCount.toNat) (hmany : condCount.toNat < hitsOn hits id) :
    2 < (searchOps order condCount w hits).count (.post id) := by
  have hmem : id ∈ order.list (hitIds condCount hits) := mem_order.mpr (by omega)
  rw [count_post_searchOps, if_pos (found_finalRecord.mpr (by omega)),
    List.count_eq_one_of_mem (nodup_order order condCount hits) hmem]
  omega

lemma found_of_post (h : Op.post id ∈ searchOps order condCount w hits) :
    hitsOn hits id ≠ 0 ∧ (finalRecord condCount hits id).found w := by
  have hpos := List.count_pos_iff.mpr h
  rw [count_post_searchOps] at hpos
  split at hpos
  · rename_i hfound
    refine ⟨fun hzero => ?_, hfound⟩
    rw [hzero, List.count_eq_zero.mpr (mem_order.not.mpr (not_not.mpr hzero))] at hpos
    omega
  · exact ⟨by omega, found_finalRecord.mpr (by omega)⟩

end Ops

end Lachesis.Topicsdb
