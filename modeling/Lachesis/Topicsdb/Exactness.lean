import Mathlib.Algebra.Order.BigOperators.Group.List
import Lachesis.Topicsdb.Search

/-!
# What a search finds

Over tables that hold logs with different identifiers, a scan hits a log once if the log has the
alternative at the position, so a search finds the logs with as many hits as the query has
positions with alternatives. These are the logs that satisfy the query if no alternative is given
twice at a position.
-/

namespace Lachesis

open Lachesis.Core Std Topicsdb

/-- The log as a search returns it: with the fields that `Push` stores. -/
def Log.indexed (log : Log) : Log := { log with txIndex := 0, removed := false }

/-- The log has, at every position with alternatives, one of them. -/
def Log.satisfies (topics : List (List HashBytes)) (log : Log) : Bool :=
  topics.zipIdx.all fun (cond, pos) =>
    cond.isEmpty || cond.any fun alternative => log.topics[pos]? = some alternative

/-- The number of scans that hit the log. -/
def Log.hitCount (topics : List (List HashBytes)) (log : Log) : ℕ :=
  (alternatives topics).countP fun a => log.topics[a.2]? = some a.1

/-- The log has as many hits as the query has positions with alternatives, and at least one. -/
def Log.hitOften (topics : List (List HashBytes)) (log : Log) : Bool :=
  0 < log.hitCount topics ∧ topics.length ≤ log.hitCount topics + topics.countP List.isEmpty

namespace Topicsdb

/-- Logs that may be pushed into one index. -/
structure Pushable (logs : List Log) : Prop where
  ids : (logs.map Log.id).Nodup
  count : ∀ log ∈ logs, log.topics.length ≤ maxCount

lemma Pushable.eq_of_id {logs : List Log} (h : Pushable logs) {log log' : Log} (hlog : log ∈ logs)
    (hlog' : log' ∈ logs) (hid : log.id = log'.id) : log = log' :=
  List.inj_on_of_nodup_map h.ids hlog hlog' hid

lemma nodup_withPrefix (t : ExtTreeMap Bytes Bytes) (pre : Bytes) :
    ((withPrefix t pre).map Prod.fst).Nodup := by
  rw [withPrefix, List.Nodup, List.pairwise_map]
  refine (t.ordered_keys_toList.filter _).imp fun hlt heq => ?_
  rw [heq, compare_self] at hlt
  cases hlt

namespace Index

variable {tt : Index} {logs : List Log} {topics : List (List HashBytes)}

/-! ### The hits of a log -/

variable {a : HashBytes × ℕ}

lemma Holds.read_withPrefix (h : tt.Holds logs) (hlogs : Pushable logs) (ha : a.2 < 256)
    {kv : Bytes × Bytes} (hkv : kv ∈ withPrefix tt.topic (a.1.val ++ posToBytes (.ofNat a.2))) :
    ∃ log ∈ logs, log.topics[a.2]? = some a.1 ∧ kv.1 = topicKey a.1 (.ofNat a.2) log.id ∧
      Hit.read kv = .ok ⟨log.id, .ofNat log.topics.length⟩ := by
  obtain ⟨k, v⟩ := kv
  rw [withPrefix, List.mem_filter, ExtTreeMap.mem_toList_iff_getElem?_eq_some, h.topic] at hkv
  obtain ⟨⟨log, hlog, t, ht, rfl, rfl⟩, hpre⟩ := hkv
  obtain ⟨htopic, hpos⟩ := isPrefixOf_topicKey.mp hpre
  have hlt := List.snd_lt_of_mem_zipIdx ht
  have hcount := hlogs.count log hlog
  rw [maxCount] at hcount
  have hpos' : a.2 = t.2 := by
    have := congrArg UInt8.toNat hpos
    rwa [UInt8.toNat_ofNat_of_lt' (show _ < 256 by omega),
      UInt8.toNat_ofNat_of_lt' (show _ < 256 by omega)] at this
  refine ⟨log, hlog, ?_, by rw [htopic, hpos], ?_⟩
  · rw [htopic, hpos']
    exact List.mem_zipIdx_iff_getElem?.mp ht
  · simp only [Hit.read, extractLogrecID_topicKey, posToBytes, bytesToPos]
    rfl

lemma Holds.mem_withPrefix (h : tt.Holds logs) {log : Log} (hlog : log ∈ logs)
    (ha : log.topics[a.2]? = some a.1) :
    (topicKey a.1 (.ofNat a.2) log.id, posToBytes (.ofNat log.topics.length)) ∈
      withPrefix tt.topic (a.1.val ++ posToBytes (.ofNat a.2)) := by
  rw [withPrefix, List.mem_filter, ExtTreeMap.mem_toList_iff_getElem?_eq_some, h.topic]
  exact ⟨⟨log, hlog, a, List.mem_zipIdx_iff_getElem?.mpr ha, rfl, rfl⟩,
    isPrefixOf_topicKey.mpr ⟨rfl, rfl⟩⟩

/-- A scan hits the logs with the topic at the position once. -/
lemma Holds.hitsOf (h : tt.Holds logs) (hlogs : Pushable logs) (ha : a.2 < 256) :
    ∃ hits, tt.hitsOf a = .ok hits ∧
      (∀ hit ∈ hits, ∃ log ∈ logs, hit = ⟨log.id, .ofNat log.topics.length⟩) ∧
      ∀ log ∈ logs, (hits.countP fun hit => hit.id = log.id) =
        if log.topics[a.2]? = some a.1 then 1 else 0 := by
  obtain ⟨hits, hhits⟩ := exists_mapM_eq_ok (f := Hit.read) fun kv hkv => by
    obtain ⟨log, -, -, -, hread⟩ := h.read_withPrefix hlogs ha hkv
    exact ⟨_, hread⟩
  have hmap := mapM_eq_ok_iff.mp hhits
  refine ⟨hits, hhits, ?_, ?_⟩
  · intro hit hhit
    have hmem : .ok hit ∈ (withPrefix tt.topic _).map Hit.read := hmap ▸ List.mem_map_of_mem hhit
    obtain ⟨kv, hkv, hread⟩ := List.mem_map.mp hmem
    obtain ⟨log, hlog, -, -, hread'⟩ := h.read_withPrefix hlogs ha hkv
    exact ⟨log, hlog, Except.ok.inj (hread.symm.trans hread')⟩
  · intro log hlog
    -- The hits of the log are counted over the pairs that were read, by their keys.
    let isHit : Except Failure Hit → Bool := fun
      | .ok hit => hit.id = log.id
      | .error _ => false
    have hkey : ∀ kv ∈ withPrefix tt.topic (a.1.val ++ posToBytes (.ofNat a.2)),
        isHit (Hit.read kv) = true ↔ (kv.1 == topicKey a.1 (.ofNat a.2) log.id) = true := by
      intro kv hkv
      obtain ⟨log', -, -, hkv', hread⟩ := h.read_withPrefix hlogs ha hkv
      rw [hread, hkv', beq_iff_eq]
      refine ⟨fun heq => ?_, fun heq => ?_⟩
      · rw [show log'.id = log.id by simpa [isHit] using heq]
      · simpa [isHit] using (topicKey_inj heq).2.2
    calc hits.countP (fun hit => hit.id = log.id)
        = (hits.map .ok).countP isHit := by rw [List.countP_map]; rfl
      _ = (withPrefix tt.topic (a.1.val ++ posToBytes (.ofNat a.2))).countP
            fun kv => kv.1 == topicKey a.1 (.ofNat a.2) log.id := by
          rw [← hmap, List.countP_map]
          exact List.countP_congr hkey
      _ = ((withPrefix tt.topic (a.1.val ++ posToBytes (.ofNat a.2))).map Prod.fst).count
            (topicKey a.1 (.ofNat a.2) log.id) := by rw [List.count_eq_countP, List.countP_map]; rfl
      _ = if log.topics[a.2]? = some a.1 then 1 else 0 := by
          rw [(nodup_withPrefix _ _).count]
          refine if_congr ⟨fun hmem => ?_, fun halt => ?_⟩ rfl rfl
          · obtain ⟨kv, hkv, hk⟩ := List.mem_map.mp hmem
            obtain ⟨log', hlog', halt, hkv', -⟩ := h.read_withPrefix hlogs ha hkv
            rw [hkv'] at hk
            rwa [← hlogs.eq_of_id hlog' hlog (topicKey_inj hk).2.2]
          · exact List.mem_map_of_mem (h.mem_withPrefix hlog halt)

lemma Holds.mapM_hitsOf (h : tt.Holds logs) (hlogs : Pushable logs) {l : List (HashBytes × ℕ)}
    (hl : ∀ a ∈ l, a.2 < 256) : ∃ scans, l.mapM tt.hitsOf = .ok scans ∧
      (∀ hit ∈ scans.flatten, ∃ log ∈ logs, hit = ⟨log.id, .ofNat log.topics.length⟩) ∧
      ∀ log ∈ logs, (scans.flatten.countP fun hit => hit.id = log.id) =
        l.countP fun a => log.topics[a.2]? = some a.1 := by
  simp only [mapM_eq_ok_iff]
  induction l with
  | nil => exact ⟨[], rfl, by simp, by simp⟩
  | cons a l ih =>
    obtain ⟨hits, hhits, hhit, hcount⟩ := h.hitsOf hlogs (hl a (.head _))
    obtain ⟨scans, hscans, hhit', hcount'⟩ := ih fun b hb => hl b (.tail _ hb)
    refine ⟨hits :: scans, by rw [List.map_cons, hhits, hscans, List.map_cons], ?_, ?_⟩
    · intro hit hmem
      rw [List.flatten_cons, List.mem_append] at hmem
      exact hmem.elim (hhit hit) (hhit' hit)
    · intro log hlog
      rw [List.flatten_cons, List.countP_append, hcount log hlog, hcount' log hlog,
        List.countP_cons, Nat.add_comm]
      simp only [decide_eq_true_eq]

lemma pos_lt_of_mem_alternatives (htopics : topics.length ≤ maxCount) (ha : a ∈ alternatives topics) :
    a.2 < 256 := by
  obtain ⟨⟨cond, pos⟩, hmem, ha⟩ := List.mem_flatMap.mp ha
  obtain ⟨alternative, -, rfl⟩ := List.mem_map.mp ha
  have hlt := List.snd_lt_of_mem_zipIdx hmem
  rw [maxCount] at htopics
  exact (show pos < 256 by omega)

lemma Holds.hits (h : tt.Holds logs) (hlogs : Pushable logs)
    (htopics : topics.length ≤ maxCount) : ∃ hits, tt.hits topics = .ok hits ∧
      (∀ hit ∈ hits, ∃ log ∈ logs, hit = ⟨log.id, .ofNat log.topics.length⟩) ∧
      ∀ log ∈ logs, (hits.countP fun hit => hit.id = log.id) = log.hitCount topics := by
  obtain ⟨scans, hscans, hhit, hcount⟩ := h.mapM_hitsOf hlogs (l := alternatives topics)
    fun a ha => pos_lt_of_mem_alternatives htopics ha
  exact ⟨scans.flatten, by rw [Index.hits, hscans]; rfl, hhit, hcount⟩

/-- The record that a search makes for a log. -/
def record (topics : List (List HashBytes)) (log : Log) : LogrecBuilder :=
  .hitTimes log.id (.ofNat topics.length) (.ofNat log.topics.length) (log.hitCount topics)

/-- There is a record for each log that is hit. -/
lemma Holds.collected (h : tt.Holds logs) (hlogs : Pushable logs)
    (htopics : topics.length ≤ maxCount) : ∃ hits, tt.hits topics = .ok hits ∧
      (collected (.ofNat topics.length) hits).Perm
        ((logs.filter fun log => 0 < log.hitCount topics).map (record topics)) := by
  obtain ⟨hits, hhits, hhit, hcount⟩ := h.hits hlogs htopics
  refine ⟨hits, hhits, ?_⟩
  have hnodup := (nodup_collected (.ofNat topics.length) hits).of_map
  have hnodup' : ((logs.filter fun log => 0 < log.hitCount topics).map (record topics)).Nodup := by
    refine List.Nodup.of_map LogrecBuilder.id ?_
    rw [List.map_map]
    exact hlogs.ids.sublist (List.filter_sublist.map _)
  rw [List.perm_ext_iff_of_nodup hnodup hnodup']
  intro r
  rw [mem_collected, List.mem_map]
  constructor
  · rintro ⟨hit, hfind, rfl⟩
    obtain ⟨log, hlog, rfl⟩ := hhit hit (List.mem_of_find?_eq_some hfind)
    refine ⟨log, List.mem_filter.mpr ⟨hlog, ?_⟩, ?_⟩
    · rw [decide_eq_true_iff, ← hcount log hlog, List.countP_pos_iff]
      exact ⟨_, List.mem_of_find?_eq_some hfind, by simp⟩
    · rw [record, ← hcount log hlog]
  · rintro ⟨log, hmem, rfl⟩
    obtain ⟨hlog, hpos⟩ := List.mem_filter.mp hmem
    rw [decide_eq_true_iff, ← hcount log hlog, List.countP_pos_iff] at hpos
    obtain ⟨hit, hfind⟩ := Option.isSome_iff_exists.mp (List.find?_isSome.mpr hpos)
    obtain ⟨log', hlog', rfl⟩ := hhit hit (List.mem_of_find?_eq_some hfind)
    obtain rfl := hlogs.eq_of_id hlog' hlog (by simpa using List.find?_some hfind)
    exact ⟨⟨log'.id, .ofNat log'.topics.length⟩, hfind, by rw [record, ← hcount log' hlog]⟩

/-! ### Fetching a log -/

/-- The topics of a record, while `Fetch` goes through the table: those that were met are there. -/
structure Filled (log : Log) (met : List (Bytes × Bytes)) (topics : List HashBytes) : Prop where
  length : topics.length = log.topics.length
  topic : ∀ t ∈ log.topics.zipIdx, topics[t.2]? = some t.1 ∨
    topics[t.2]? = some HashBytes.zero ∧ ∀ kv ∈ met, kv.1 ≠ otherKey log.id (.ofNat t.2)

variable {met : List (Bytes × Bytes)}

lemma Filled.set {log : Log} (hcount : log.topics.length ≤ maxCount)
    {topics topics' : List HashBytes} (h : Filled log met topics) {t : HashBytes × ℕ}
    (ht : t ∈ log.topics.zipIdx) (hlength : topics'.length = topics.length)
    (hat : topics'[t.2]? = some t.1) (helse : ∀ i ≠ t.2, topics'[i]? = topics[i]?) :
    Filled log (met ++ [(otherKey log.id (.ofNat t.2), t.1.val)]) topics' where
  length := hlength.trans h.length
  topic t' ht' := by
    by_cases hpos : t'.2 = t.2
    · obtain rfl := ofNat_pos_inj hcount ht' ht (congrArg UInt8.ofNat hpos)
      exact .inl hat
    · rw [helse _ hpos]
      refine (h.topic t' ht').imp_right fun ⟨hzero, hmet⟩ => ⟨hzero, fun kv hkv hkey => ?_⟩
      rw [List.mem_append, List.mem_singleton] at hkv
      obtain hkv | rfl := hkv
      · exact hmet kv hkv hkey
      · exact hpos (congrArg Prod.snd (ofNat_pos_inj hcount ht' ht (otherKey_inj hkey).2.symm))

lemma Filled.next {log : Log} (hcount : log.topics.length ≤ maxCount) {r : LogrecBuilder}
    (hr : r.topicsCount = .ofNat log.topics.length) (h : Filled log met r.log.topics)
    {t : HashBytes × ℕ} (ht : t ∈ log.topics.zipIdx) :
    ∃ topics, r.fetchOther (otherKey log.id (.ofNat t.2), t.1.val) =
        .ok { r with log := { r.log with topics } } ∧
      Filled log (met ++ [(otherKey log.id (.ofNat t.2), t.1.val)]) topics := by
  have hlt := List.snd_lt_of_mem_zipIdx ht
  have hle := hcount
  rw [maxCount] at hle
  have hpos : (UInt8.ofNat t.2).toNat = t.2 := UInt8.toNat_ofNat_of_lt' (show _ < 256 by omega)
  have hfits : ¬UInt8.ofNat log.topics.length ≤ UInt8.ofNat t.2 := by
    rw [UInt8.not_le, UInt8.lt_iff_toNat_lt, hpos,
      UInt8.toNat_ofNat_of_lt' (show _ < 256 by omega)]
    omega
  have hset : Filled log (met ++ [(otherKey log.id (.ofNat t.2), t.1.val)])
      (r.log.topics.set t.2 t.1) := by
    refine h.set hcount ht List.length_set ?_ fun i hi => List.getElem?_set_ne (Ne.symm hi)
    rw [List.getElem?_set_self (by rw [h.length]; omega)]
  simp only [LogrecBuilder.fetchOther, extractTopicPos_otherKey, bind, Except.bind,
    LogrecBuilder.setOtherTopic, hr, if_neg hfits, hpos, HashBytes.setBytes_eq t.1.property]
  obtain hold | ⟨hold, -⟩ := h.topic t ht
  · simp only [hold]
    split
    · exact ⟨r.log.topics, by rw [← hr], h.set hcount ht rfl hold fun _ _ => rfl⟩
    · exact ⟨_, rfl, hset⟩
  · simp only [hold, ne_eq, not_true_eq_false, if_false]
    exact ⟨_, rfl, hset⟩

lemma Filled.start (log : Log) : Filled log [] (List.replicate log.topics.length HashBytes.zero) where
  length := List.length_replicate
  topic t ht := by
    refine .inr ⟨?_, by simp⟩
    have hlt := List.snd_lt_of_mem_zipIdx ht
    rw [List.getElem?_replicate, if_pos (by omega)]

lemma Filled.eq {log : Log} {topics : List HashBytes} (h : Filled log met topics)
    (hmet : ∀ t ∈ log.topics.zipIdx, ∃ kv ∈ met, kv.1 = otherKey log.id (.ofNat t.2)) :
    topics = log.topics := by
  refine List.ext_getElem? fun i => ?_
  cases hi : log.topics[i]? with
  | none =>
    rw [List.getElem?_eq_none_iff] at hi ⊢
    rwa [h.length]
  | some topic =>
    have ht : (topic, i) ∈ log.topics.zipIdx := List.mem_zipIdx_iff_getElem?.mpr hi
    refine (h.topic _ ht).resolve_right fun ⟨_, hno⟩ => ?_
    obtain ⟨kv, hkv, hkey⟩ := hmet _ ht
    exact hno kv hkv hkey

lemma Holds.mem_withPrefix_other (h : tt.Holds logs) (hlogs : Pushable logs) {log : Log}
    (hlog : log ∈ logs) {kv : Bytes × Bytes} : kv ∈ withPrefix tt.other log.id.val ↔
      ∃ t ∈ log.topics.zipIdx, kv = (otherKey log.id (.ofNat t.2), t.1.val) := by
  obtain ⟨k, v⟩ := kv
  rw [withPrefix, List.mem_filter, ExtTreeMap.mem_toList_iff_getElem?_eq_some, h.other]
  constructor
  · rintro ⟨⟨log', hlog', t, ht, rfl, rfl⟩, hpre⟩
    obtain rfl := hlogs.eq_of_id hlog hlog' (isPrefixOf_otherKey.mp hpre)
    exact ⟨t, ht, rfl⟩
  · rintro ⟨t, ht, heq⟩
    cases heq
    exact ⟨⟨log, hlog, t, ht, rfl, rfl⟩, isPrefixOf_otherKey.mpr rfl⟩

/-- What is fetched for a log is the log. -/
lemma Holds.fetch (h : tt.Holds logs) (hlogs : Pushable logs) {log : Log} (hlog : log ∈ logs)
    (condCount : UInt8) (n : ℕ) :
    ((LogrecBuilder.hitTimes log.id condCount (.ofNat log.topics.length) n).fetch tt).map (·.log) =
      .ok log.indexed := by
  have hcount := hlogs.count log hlog
  have hlength : (UInt8.ofNat log.topics.length).toNat = log.topics.length :=
    UInt8.toNat_ofNat_of_lt' (by rw [maxCount] at hcount; exact Nat.lt_succ_of_le hcount)
  set r := LogrecBuilder.hitTimes log.id condCount (.ofNat log.topics.length) n
  obtain ⟨r', hfold, topics, rfl, hfilled⟩ := foldlM_ok LogrecBuilder.fetchOther
    (withPrefix tt.other log.id.val) r
    (fun met r' => ∃ topics, r' = { r with log := { r.log with topics } } ∧
      Filled log met topics)
    ⟨List.replicate (UInt8.ofNat log.topics.length).toNat HashBytes.zero, rfl,
      hlength.symm ▸ .start log⟩
    (by
      rintro met kv rest _ hl ⟨topics, rfl, hfilled⟩
      have hkv : kv ∈ withPrefix tt.other log.id.val := by simp [hl]
      obtain ⟨t, ht, rfl⟩ := (h.mem_withPrefix_other hlogs hlog).mp hkv
      obtain ⟨topics', hnext, hfilled'⟩ := Filled.next hcount
        (r := { r with log := { r.log with topics } }) rfl hfilled ht
      exact ⟨_, hnext, topics', rfl, hfilled'⟩)
  have htopics : topics = log.topics := hfilled.eq fun t ht =>
    ⟨_, (h.mem_withPrefix_other hlogs hlog).mpr ⟨t, ht, rfl⟩, rfl⟩
  have hrecord := (h.logrec _ _).mpr ⟨log, hlog, rfl, rfl⟩
  have hfields : (52 : ℕ) ≤ (log.address.val ++ log.blockHash.val ++ log.data).length := by
    simp [log.address.property, log.blockHash.property]
    omega
  have hfetch : r.fetch tt = LogrecBuilder.fetchFields
      { r with log := { r.log with topics } }
      (log.address.val ++ log.blockHash.val ++ log.data) := by
    rw [LogrecBuilder.fetch, show r.id = log.id from rfl, hfold]
    exact congrArg (fun buf => LogrecBuilder.fetchFields _ (Option.getD buf [])) hrecord
  rw [hfetch, LogrecBuilder.fetchFields, dif_pos hfields]
  refine congrArg Except.ok (Log.ext (Subtype.ext ?_) htopics ?_ ?_ ?_ rfl (Subtype.ext ?_) ?_ rfl)
  · simp [log.address.property, Log.indexed]
  · simp [log.address.property, log.blockHash.property, Log.indexed, List.drop_append]
  · exact ID.blockNumber_new ..
  · exact ID.txHash_new ..
  · simp [log.address.property, log.blockHash.property, Log.indexed]
  · exact ID.index_new ..

lemma found_record (htopics : topics.length ≤ maxCount) (log : Log) :
    (record topics log).found (wildcards topics) =
      decide (topics.length ≤ log.hitCount topics + topics.countP List.isEmpty) := by
  have hle := List.countP_le_length (p := List.isEmpty) (l := topics)
  rw [maxCount] at htopics
  rw [record, LogrecBuilder.found, LogrecBuilder.matchedWith_hitTimes, Bool.eq_iff_iff,
    LogrecBuilder.isMatched_hitTimes, decide_eq_true_iff, wildcards,
    UInt8.toNat_ofNat_of_lt' (show _ < 256 by omega),
    UInt8.toNat_ofNat_of_lt' (show _ < 256 by omega)]

lemma Holds.fetchLog_record (h : tt.Holds logs) (hlogs : Pushable logs) {log : Log}
    (hlog : log ∈ logs) : (record topics log).fetchLog tt (wildcards topics) = .ok log.indexed := by
  rw [record, LogrecBuilder.fetchLog, LogrecBuilder.matchedWith_hitTimes]
  exact h.fetch hlogs hlog _ _

/-- A search over the tables returns the logs that were hit often enough. -/
theorem Holds.fetchSync (h : tt.Holds logs) (hlogs : Pushable logs)
    (htopics : topics.length ≤ maxCount) (order : MapOrder LogrecBuilder) :
    ∃ res, tt.fetchSync order topics = .ok res ∧
      res.Perm ((logs.filter (Log.hitOften topics)).map Log.indexed) := by
  obtain ⟨hits, hhits, hperm⟩ := h.collected hlogs htopics
  have hlist : ((order.list (Topicsdb.collected (.ofNat topics.length) hits)).filter
      (LogrecBuilder.found (wildcards topics))).Perm
        ((logs.filter (Log.hitOften topics)).map (record topics)) := by
    refine (((order.perm _).trans hperm).filter _).trans (List.Perm.of_eq ?_)
    rw [List.filter_map, List.filter_filter]
    refine congrArg _ (List.filter_congr fun log _ => ?_)
    simp only [Function.comp, found_record htopics, Log.hitOften, Bool.decide_and]
    exact Bool.and_comm ..
  have hfetch : ∀ log ∈ logs.filter (Log.hitOften topics),
      (record topics log).fetchLog tt (wildcards topics) = .ok log.indexed := fun log hlog =>
    h.fetchLog_record hlogs (List.mem_of_mem_filter hlog)
  obtain ⟨res, hres⟩ := exists_mapM_eq_ok
    (f := LogrecBuilder.fetchLog tt (wildcards topics)) fun r hr => by
      obtain ⟨log, hlog, rfl⟩ := List.mem_map.mp (hlist.mem_iff.mp hr)
      exact ⟨_, hfetch log hlog⟩
  rw [mapM_eq_ok_iff] at hres
  refine ⟨res, fetchSync_eq_ok_iff.mpr ⟨htopics, hits, hhits, hres⟩, ?_⟩
  have hmap := hlist.map (LogrecBuilder.fetchLog tt (wildcards topics))
  rw [hres, List.map_map, List.map_congr_left (f := LogrecBuilder.fetchLog tt _ ∘ _)
    (g := Except.ok ∘ Log.indexed) hfetch, ← List.map_map] at hmap
  exact (List.map_perm_map_iff fun _ _ => Except.ok.inj).mp hmap

end Index

/-! ### Hits and positions -/

section Positions

/-- What a position adds to the hits of a log and the wildcards. -/
def share (log : Log) (e : List HashBytes × ℕ) : ℕ :=
  (e.1.countP fun alternative => log.topics[e.2]? = some alternative) +
    if e.1.isEmpty then 1 else 0

variable {topics : List (List HashBytes)} {log : Log}

lemma hitCount_add_wildcards (topics : List (List HashBytes)) (log : Log) :
    log.hitCount topics + topics.countP List.isEmpty = (topics.zipIdx.map (share log)).sum := by
  suffices hgo : ∀ l : List (List HashBytes × ℕ),
      (l.flatMap fun (cond, pos) => cond.map (·, pos)).countP
          (fun a => log.topics[a.2]? = some a.1) +
        (l.map Prod.fst).countP List.isEmpty = (l.map (share log)).sum by
    have hall := hgo topics.zipIdx
    rwa [List.zipIdx_map_fst] at hall
  intro l
  induction l with
  | nil => rfl
  | cons e l ih =>
    simp only [List.flatMap_cons, List.countP_append, List.map_cons, List.countP_cons,
      List.countP_map, List.sum_cons, ← ih, share, Function.comp_def]
    omega

lemma satisfies_iff : log.satisfies topics ↔ ∀ e ∈ topics.zipIdx, 1 ≤ share log e := by
  rw [Log.satisfies, List.all_eq_true]
  refine forall₂_congr fun e _ => ?_
  rw [Bool.or_eq_true, List.any_eq_true, ← List.countP_pos_iff, share]
  cases e.1.isEmpty
  · simp [Nat.one_le_iff_ne_zero, Nat.pos_iff_ne_zero]
  · simp

lemma share_le_one {e : List HashBytes × ℕ} (he : e.1.Nodup) : share log e ≤ 1 := by
  obtain ⟨cond, pos⟩ := e
  cases cond with
  | nil => simp [share]
  | cons alternative cond =>
    rw [share, List.isEmpty_cons, if_neg Bool.false_ne_true, Nat.add_zero]
    cases log.topics[pos]? with
    | none => simp
    | some topic =>
      have hcount := List.nodup_iff_count_le_one.mp he topic
      rw [List.count_eq_countP] at hcount
      refine (List.countP_mono_left fun alternative' _ heq => ?_).trans hcount
      rw [decide_eq_true_iff, Option.some.injEq] at heq
      exact beq_iff_eq.mpr heq.symm

lemma sum_le_length {α : Type} {f : α → ℕ} {l : List α} (hle : ∀ x ∈ l, f x ≤ 1) :
    (l.map f).sum ≤ l.length := by
  simpa using List.sum_le_card_nsmul (l.map f) 1 (by simpa using hle)

lemma one_le_of_length_le_sum {α : Type} {f : α → ℕ} {l : List α} (hle : ∀ x ∈ l, f x ≤ 1)
    (hsum : l.length ≤ (l.map f).sum) : ∀ x ∈ l, 1 ≤ f x := by
  intro x hx
  by_contra hlt
  obtain ⟨l₁, l₂, rfl⟩ := List.append_of_mem hx
  have h₁ := sum_le_length (f := f) (l := l₁) fun y hy => hle y (by simp [hy])
  have h₂ := sum_le_length (f := f) (l := l₂) fun y hy => hle y (by simp [hy])
  simp at hsum
  omega

lemma hitOften_of_satisfies (hne : ∃ cond ∈ topics, cond ≠ []) (h : log.satisfies topics) :
    log.hitOften topics := by
  rw [satisfies_iff] at h
  have hsum := List.length_le_sum_of_one_le (topics.zipIdx.map (share log))
    (List.forall_mem_map.mpr h)
  rw [List.length_map, List.length_zipIdx, ← hitCount_add_wildcards] at hsum
  have hfew : topics.countP List.isEmpty < topics.length := by
    refine List.countP_le_length.lt_of_ne fun heq => ?_
    obtain ⟨cond, hcond, hne⟩ := hne
    exact hne (List.isEmpty_iff.mp (List.countP_eq_length.mp heq cond hcond))
  rw [Log.hitOften, decide_eq_true_iff]
  exact ⟨by omega, hsum⟩

lemma satisfies_of_nodup (hnodup : ∀ cond ∈ topics, cond.Nodup) (h : log.hitOften topics) :
    log.satisfies topics := by
  rw [Log.hitOften, decide_eq_true_iff, hitCount_add_wildcards] at h
  rw [satisfies_iff]
  refine one_le_of_length_le_sum (fun e he => share_le_one (hnodup e.1 ?_)) ?_
  · exact List.zipIdx_map_fst 0 topics ▸ List.mem_map_of_mem he
  · rw [List.length_zipIdx]
    exact h.2

lemma satisfies_of_countP_eq_one (hone : topics.countP (· ≠ []) = 1) (h : log.hitOften topics) :
    log.satisfies topics := by
  rw [← List.zipIdx_map_fst 0 topics, List.countP_map, List.countP_eq_length_filter,
    List.length_eq_one_iff] at hone
  obtain ⟨e, hfilter⟩ := hone
  have hsame : ∀ e' ∈ topics.zipIdx, e'.1 ≠ [] → e' = e := fun e' he' hne => by
    have hmem : e' ∈ topics.zipIdx.filter ((fun cond => decide (cond ≠ [])) ∘ Prod.fst) :=
      List.mem_filter.mpr ⟨he', by simpa using hne⟩
    exact List.mem_singleton.mp (hfilter ▸ hmem)
  rw [Log.hitOften, decide_eq_true_iff, Log.hitCount, List.countP_pos_iff] at h
  obtain ⟨⟨a, ha, hhit⟩, -⟩ := h
  obtain ⟨e₁, he₁, ha⟩ := List.mem_flatMap.mp ha
  obtain ⟨alternative, halt, rfl⟩ := List.mem_map.mp ha
  rw [Log.satisfies, List.all_eq_true]
  intro e' he'
  by_cases hne : e'.1 = []
  · simp [hne]
  · obtain rfl := (hsame e' he' hne).trans (hsame e₁ he₁ (List.ne_nil_of_mem halt)).symm
    rw [Bool.or_eq_true, List.any_eq_true]
    exact .inr ⟨alternative, halt, hhit⟩

/-- After a push into an empty database, a search returns exactly the logs that satisfy the query,
each once, if and only if no other log is hit as often as there are positions with alternatives.
That is so if no position repeats an alternative or only one position has alternatives. -/
theorem fetchSync_exact {logs : List Log} (hlogs : Pushable logs)
    (htopics : topics.length ≤ maxCount) (hne : ∃ cond ∈ topics, cond ≠ [])
    (order : MapOrder LogrecBuilder) :
    ∃ tt res, Index.empty.push logs = (tt, none) ∧ tt.fetchSync order topics = .ok res ∧
      (res.Perm ((logs.filter (Log.satisfies topics)).map Log.indexed) ↔
        ∀ log ∈ logs, log.hitOften topics → log.satisfies topics) ∧
      ((∀ cond ∈ topics, cond.Nodup) ∨ topics.countP (· ≠ []) = 1 →
        res.Perm ((logs.filter (Log.satisfies topics)).map Log.indexed)) := by
  obtain ⟨tt, hpush, hholds⟩ := Index.push_holds hlogs.ids hlogs.count
  obtain ⟨res, hres, hperm⟩ := hholds.fetchSync hlogs htopics order
  have hiff : res.Perm ((logs.filter (Log.satisfies topics)).map Log.indexed) ↔
      ∀ log ∈ logs, log.hitOften topics → log.satisfies topics := by
    have hfilter : logs.filter (Log.satisfies topics) =
        (logs.filter (Log.hitOften topics)).filter (Log.satisfies topics) := by
      rw [List.filter_filter]
      refine List.filter_congr fun log _ => ?_
      rw [Bool.eq_iff_iff, Bool.and_eq_true]
      exact (and_iff_left_of_imp (hitOften_of_satisfies hne)).symm
    have hall : (∀ log ∈ logs, log.hitOften topics → log.satisfies topics) ↔
        ∀ log ∈ logs.filter (Log.hitOften topics), log.satisfies topics := by
      simp only [List.mem_filter, and_imp]
    rw [hall, hfilter]
    constructor
    · intro h
      have hlength := (hperm.symm.trans h).length_eq
      rw [List.length_map, List.length_map] at hlength
      exact List.length_filter_eq_length_iff.mp hlength.symm
    · intro h
      rwa [List.filter_eq_self.mpr h]
  refine ⟨tt, res, hpush, hres, hiff, fun hrep => hiff.mpr fun log _ h => ?_⟩
  obtain hnodup | hone := hrep
  · exact satisfies_of_nodup hnodup h
  · exact satisfies_of_countP_eq_one hone h

end Positions

namespace OneTopic

/-- A hash of equal bytes. -/
def hash (b : UInt8) : HashBytes := ⟨List.replicate 32 b, List.length_replicate⟩

/-- A log with one topic. -/
def log : Log where
  address := ⟨List.replicate 20 9, rfl⟩
  topics := [hash 1]
  data := [7, 7]
  blockNumber := 5
  txHash := hash 3
  txIndex := 0
  blockHash := hash 4
  index := 0
  removed := false

/-- The order of the keys. -/
def keyOrder {α : Type} : MapOrder α := ⟨id, fun _ => .refl _⟩

lemma pushable : Pushable [log] := ⟨List.nodup_singleton _, by decide⟩

/-- The log is found by its topic, with a wildcard after it. -/
theorem fetchSync_exact_oneTopic : Pushable [log] ∧ ∃ tt res,
    Index.empty.push [log] = (tt, none) ∧ tt.fetchSync keyOrder [[hash 1, hash 2], []] = .ok res ∧
      res.Perm (([log].filter (Log.satisfies [[hash 1, hash 2], []])).map Log.indexed) ∧
      log.satisfies [[hash 1, hash 2], []] := by
  obtain ⟨tt, res, hpush, hres, -, hperm⟩ := fetchSync_exact pushable
    (show [[hash 1, hash 2], []].length ≤ maxCount by decide)
    ⟨[hash 1, hash 2], by simp, by simp⟩ keyOrder
  exact ⟨pushable, tt, res, hpush, hres, hperm (.inl (by decide +kernel)), by decide +kernel⟩

/-- Asked for its topic twice and for another one at the second position, the log is returned. -/
theorem fetchSync_repeated :
    (Index.empty.push [log]).1.fetchSync keyOrder [[hash 1, hash 1], [hash 2]] =
      .ok [log.indexed] ∧ log.satisfies [[hash 1, hash 1], [hash 2]] = false := by
  decide +kernel

end OneTopic

end Topicsdb

end Lachesis
