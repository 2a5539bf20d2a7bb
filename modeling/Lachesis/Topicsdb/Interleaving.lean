import Lachesis.Topicsdb.Async

/-!
# Interleavings of a search

A run of `fetchAsync` goes through the operations of its caller as a caller with workers does: the
goroutine of a record is a worker, `rec.ok` its box, and the receive from `rec.ready` a wait. So
all runs end. They return, with the logs of `fetchSync`, if no log is hit by more scans than the
query has positions, and get stuck otherwise.
-/

namespace Lachesis.Topicsdb

open Lachesis.Core Std
open LogrecBuilder (hitTimes)
open Handoff

/-! ### A search goes through its operations -/

/-- A query whose scans and fetches do not crash, with the order of the records and whether the
database may fail. -/
structure Plan where
  tt : Index
  topics : List (List HashBytes)
  hits : List Hit
  order : MapOrder ID
  failing : Bool
  length_le : topics.length ≤ maxCount
  read : (tt.pairs topics).map Hit.read = hits.map .ok
  fetches : ∀ id, hitsOn hits id ≠ 0 →
    (finalRecord (.ofNat topics.length) hits id).found (wildcards topics) →
      ∃ log, (finalRecord (.ofNat topics.length) hits id).fetchLog tt (wildcards topics) = .ok log

namespace Plan

variable (P : Plan)

def condCount : UInt8 := .ofNat P.topics.length

def record (id : ID) : LogrecBuilder := finalRecord P.condCount P.hits id

def found (id : ID) : Bool := (P.record id).found (wildcards P.topics)

def fetchLog (id : ID) : Except Failure Log := (P.record id).fetchLog P.tt (wildcards P.topics)

/-- The records in the order of the last loop. -/
def ids : List ID := P.order.list (hitIds P.condCount P.hits)

def finish (ids : List ID) : List (Op ID) :=
  finishOps P.condCount (wildcards P.topics) P.hits ids

def ops : List (Op ID) := searchOps P.order P.condCount (wildcards P.topics) P.hits

/-- The logs of the records that were gone through. -/
def Gathered (past : List ID) (res : List Log) : Prop :=
  (past.filter P.found).map P.fetchLog = res.map .ok

lemma toNat_condCount : P.condCount.toNat = P.topics.length := by
  have := P.length_le
  rw [maxCount] at this
  exact UInt8.toNat_ofNat_of_lt' (show _ < 256 by omega)

lemma finish_cons (id : ID) (ids : List ID) :
    P.finish (id :: ids) = (if P.found id then [.post id, .join id] else []) ++ P.finish ids :=
  rfl

end Plan

/-- A goroutine as a worker. -/
def Routine.worker : Routine → Worker
  | .waiting => .waiting
  | .fetching => .working
  | .sending _ => .ready
  | .done => .done

/-- The log of the record is as its goroutine has left it. -/
def AsyncBuilder.Stands (P : Plan) (id : ID) (r : AsyncBuilder) : Prop :=
  match r.routine with
  | .waiting | .fetching => r.log = (P.record id).log ∧ r.topicsCount = (P.record id).topicsCount
  | .sending false => P.fetchLog id = .ok r.log
  | .sending true => P.failing = true
  | .done => True

/-- The records and their goroutines are those of the workers. -/
structure Threads (P : Plan) (recs : ExtTreeMap Bytes AsyncBuilder) (box : ID → Bool)
    (worker : ID → Worker) : Prop where
  key : ∀ k (r : AsyncBuilder), recs[k]? = some r → k = r.id.val
  fresh : ∀ id : ID, recs[id.val]? = none → box id = false ∧ worker id = .waiting
  started : ∀ (id : ID) (r : AsyncBuilder), recs[id.val]? = some r →
    r.Stands P id ∧ box id = r.ok ∧ worker id = r.routine.worker

/-- The conditions that the records still count. -/
def conds (recs : ExtTreeMap Bytes AsyncBuilder) (id : ID) : Option ℕ :=
  recs[id.val]?.map (·.conditions.toNat)

/-- The records have counted the hits. -/
def Counted (P : Plan) (hits : List Hit) (conds : ID → Option ℕ) : Prop :=
  ∀ id, conds id = if hitsOn hits id = 0 then none else some (P.condCount.toNat - hitsOn hits id)

/-- What is left to the caller at each point. -/
def At (P : Plan) (conds : ID → Option ℕ) (todo : List (Op ID)) : Caller → Prop
  | .scanning pairs => ∃ before left, P.hits = before ++ left ∧
      pairs.map Hit.read = left.map .ok ∧ Counted P before conds ∧
      todo = scanOps P.condCount before left ++ P.finish P.ids
  | .matching id pairs => ∃ before left, P.hits = before ++ left ∧
      pairs.map Hit.read = left.map .ok ∧ Counted P before conds ∧ hitsOn before id ≠ 0 ∧
      todo = .post id :: (scanOps P.condCount before left ++ P.finish P.ids)
  | .finishing ids res => ∃ past, P.ids = past ++ ids ∧ P.Gathered past res ∧
      (∀ id ∈ ids, conds id = some (P.condCount.toNat - hitsOn P.hits id)) ∧
      todo = P.finish ids
  | .matchingAll id ids res => ∃ past, P.ids = past ++ id :: ids ∧ P.Gathered past res ∧
      (∀ id ∈ ids, conds id = some (P.condCount.toNat - hitsOn P.hits id)) ∧
      P.found id ∧ conds id = some 0 ∧ todo = .post id :: .join id :: P.finish ids
  | .building id ids res => ∃ past, P.ids = past ++ id :: ids ∧ P.Gathered past res ∧
      (∀ id ∈ ids, conds id = some (P.condCount.toNat - hitsOn P.hits id)) ∧
      P.found id ∧ conds id = some 0 ∧ todo = .join id :: P.finish ids
  | .returned (some res) => P.Gathered P.ids res ∧ todo = []
  | .returned none => P.failing = true
  | .crashed _ => False

/-- The search is where the caller and the workers of its operations are. -/
structure Mirrors (P : Plan) (s : Search) (a : State ID) : Prop where
  follows : Follows P.ops a
  threads : Threads P s.recs a.box a.worker
  caller : At P (conds s.recs) a.todo s.caller

section Mirrors

variable {P : Plan} {s t : Search} {a : State ID} {recs : ExtTreeMap Bytes AsyncBuilder}
  {box box' : ID → Bool} {worker worker' : ID → Worker} {id : ID} {r : AsyncBuilder}

lemma conds_insert (recs : ExtTreeMap Bytes AsyncBuilder) (id : ID) (r : AsyncBuilder) :
    conds (recs.insert id.val r) = Function.update (conds recs) id (some r.conditions.toNat) := by
  funext id'
  rw [conds, ExtTreeMap.getElem?_insert, Function.update_apply]
  simp only [Std.compare_eq_iff_eq, ← Subtype.ext_iff, eq_comm (a := id)]
  split
  · rfl
  · rfl

lemma conds_insert_self (h : recs[id.val]? = some r) {r' : AsyncBuilder}
    (hr : r'.conditions = r.conditions) : conds (recs.insert id.val r') = conds recs := by
  rw [conds_insert, hr, Function.update_eq_self_iff, conds, h]
  rfl

lemma Threads.insert (h : Threads P recs box worker) (hid : r.id = id) (hr : r.Stands P id)
    (hbox : box' id = r.ok) (hworker : worker' id = r.routine.worker)
    (hother : ∀ id', id' ≠ id → box' id' = box id' ∧ worker' id' = worker id') :
    Threads P (recs.insert id.val r) box' worker' where
  key k r' hk := by
    rw [ExtTreeMap.getElem?_insert] at hk
    split at hk
    · rename_i heq
      cases hk
      rw [← Std.compare_eq_iff_eq.mp heq, hid]
    · exact h.key k r' hk
  fresh id' hk := by
    rw [ExtTreeMap.getElem?_insert] at hk
    split at hk
    · cases hk
    · rename_i hne
      have hne : id' ≠ id := fun heq => hne (by rw [heq, compare_self])
      rw [(hother id' hne).1, (hother id' hne).2]
      exact h.fresh id' hk
  started id' r' hk := by
    rw [ExtTreeMap.getElem?_insert] at hk
    split at hk
    · rename_i heq
      cases hk
      rw [Std.compare_eq_iff_eq, ← Subtype.ext_iff] at heq
      subst heq
      exact ⟨hr, hbox, hworker⟩
    · rename_i hne
      have hne : id' ≠ id := fun heq => hne (by rw [heq, compare_self])
      rw [(hother id' hne).1, (hother id' hne).2]
      exact h.started id' r' hk

lemma Threads.id_eq (h : Threads P recs box worker) (hr : recs[id.val]? = some r) : r.id = id :=
  Subtype.ext (h.key _ _ hr).symm

lemma Mirrors.step {b : State ID} (h : Mirrors P s a) (hstep : Step a b)
    (hr : s.recs[id.val]? = some r) (r' : AsyncBuilder) (hid : r'.id = r.id)
    (hconditions : r'.conditions = r.conditions) (hstands : r'.Stands P id)
    (hbox : b.box id = r'.ok) (hworker : b.worker id = r'.routine.worker)
    (hother : ∀ id', id' ≠ id → b.box id' = a.box id' ∧ b.worker id' = a.worker id')
    {caller : Caller} (hcaller : At P (conds s.recs) b.todo caller) :
    Mirrors P { caller, recs := s.recs.insert id.val r' } b where
  follows := hstep.follows h.follows
  threads := h.threads.insert (hid.trans (h.threads.id_eq hr)) hstands hbox hworker hother
  caller := by
    rw [conds_insert_self hr hconditions]
    exact hcaller

lemma Mirrors.fetchLog (h : Mirrors P s a) (hworker : a.worker id ≠ .waiting) :
    ∃ log, P.fetchLog id = .ok log := by
  have hpost : Op.post id ∈ P.ops := h.follows.mem (by simp [State.sent, hworker])
  obtain ⟨hhit, hfound⟩ := found_of_post hpost
  exact P.fetches id hhit hfound

lemma Mirrors.fetch (h : Mirrors P s a) (hr : s.recs[id.val]? = some r)
    (hfetching : r.routine = .fetching) : ∃ b, r.fetch P.tt = .ok b ∧ b.id = r.id ∧
      b.conditions = r.conditions ∧ P.fetchLog id = .ok b.log := by
  obtain ⟨hstands, -, hworker⟩ := h.threads.started id r hr
  obtain ⟨log, hlog⟩ := h.fetchLog (show a.worker id ≠ .waiting by rw [hworker, hfetching]; nofun)
  rw [AsyncBuilder.Stands, hfetching] at hstands
  have hrecord : r.toLogrecBuilder = { P.record id with conditions := r.conditions } := by
    rw [LogrecBuilder.mk.injEq]
    exact ⟨hstands.1, h.threads.id_eq hr, rfl, hstands.2⟩
  have hfetch := hlog
  rw [Plan.fetchLog, LogrecBuilder.fetchLog_eq, map_eq_ok_iff] at hfetch
  obtain ⟨b, hb, hblog⟩ := hfetch
  refine ⟨{ b with conditions := r.conditions }, ?_, ?_, rfl, ?_⟩
  · rw [hrecord, LogrecBuilder.fetch_conditions, hb]
    rfl
  · rw [LogrecBuilder.fetch_keeps hb]
    exact (h.threads.id_eq hr).symm
  · rw [hlog, ← hblog]

/-- A step of a goroutine is a step of its worker. -/
lemma Mirrors.routine (h : Mirrors P s a) (hs : s.routine P.tt id = some t) :
    ∃ b, Step a b ∧ Mirrors P t b := by
  obtain ⟨todo, box, worker⟩ := a
  simp only [Search.routine, Option.bind_eq_bind, Option.bind_eq_some_iff,
    Option.guard_eq_some'] at hs
  obtain ⟨-, -, r, hr, hs⟩ := hs
  obtain ⟨hstands, hbox, hworker⟩ := h.threads.started id r hr
  cases hroutine : r.routine with
  | waiting =>
    simp only [hroutine, Option.bind_eq_some_iff, Option.guard_eq_some'] at hs hworker
    obtain ⟨-, hok, hs⟩ := hs
    cases hs
    have hstep : Step ⟨todo, box, worker⟩ _ := .take (hbox.trans hok) hworker
    refine ⟨_, hstep, h.step hstep hr { r with ok := false, routine := .fetching } rfl rfl ?_
      (by simp) (by simp [Routine.worker]) ?_ h.caller⟩
    · rw [AsyncBuilder.Stands, hroutine] at hstands
      exact hstands
    · intro id' hne
      simp [hne]
  | fetching =>
    obtain ⟨b, hb, hid, hconditions, hlog⟩ := h.fetch hr hroutine
    simp only [hroutine, hb] at hs hworker
    cases hs
    have hstep : Step ⟨todo, box, worker⟩ _ := .work hworker
    refine ⟨_, hstep, h.step hstep hr
      { r with toLogrecBuilder := b, routine := .sending false } hid hconditions hlog hbox
      (by simp [Routine.worker]) ?_ h.caller⟩
    intro id' hne
    simp [hne]
  | sending failed =>
    simp only [hroutine] at hs
    cases hs
  | done =>
    simp only [hroutine] at hs
    cases hs

lemma Mirrors.fetchFails (h : Mirrors P s a) (hfailing : P.failing = true)
    (hs : s.fetchFails id = some t) : ∃ b, Step a b ∧ Mirrors P t b := by
  obtain ⟨todo, box, worker⟩ := a
  simp only [Search.fetchFails, Option.bind_eq_bind, Option.bind_eq_some_iff,
    Option.guard_eq_some'] at hs
  obtain ⟨-, -, r, hr, -, hroutine, hs⟩ := hs
  cases hs
  obtain ⟨-, hbox, hworker⟩ := h.threads.started id r hr
  rw [hroutine] at hworker
  have hstep : Step ⟨todo, box, worker⟩ _ := .work hworker
  refine ⟨_, hstep, h.step hstep hr { r with routine := .sending true } rfl rfl hfailing hbox
    (by simp [Routine.worker]) ?_ h.caller⟩
  intro id' hne
  simp [hne]

/-! ### Steps of the caller -/

/-- The steps that the caller can take before it does its next operation. -/
def Search.rank (P : Plan) (s : Search) : ℕ :=
  match s.caller with
  | .scanning pairs | .matching _ pairs => P.ids.length + 2 + pairs.length
  | .finishing ids _ | .matchingAll _ ids _ | .building _ ids _ => ids.length + 1
  | .returned _ | .crashed _ => 0

lemma mem_map_toList {α : Type} {m : ExtTreeMap Bytes α} {f : α → ID}
    (hkey : ∀ k x, m[k]? = some x → k = (f x).val) {k : Bytes} {id : ID} :
    (k, id) ∈ m.toList.map (fun p => (p.1, f p.2)) ↔ k = id.val ∧ m[id.val]? ≠ none := by
  simp only [List.mem_map, Prod.exists, ExtTreeMap.mem_toList_iff_getElem?_eq_some,
    Prod.mk.injEq, Option.ne_none_iff_exists']
  constructor
  · rintro ⟨k, x, hx, rfl, rfl⟩
    have hk := hkey k x hx
    exact ⟨hk, x, hk ▸ hx⟩
  · rintro ⟨rfl, x, hx⟩
    exact ⟨id.val, x, hx, rfl, Subtype.ext (hkey _ x hx).symm⟩

lemma map_toList_congr {α β : Type} {m : ExtTreeMap Bytes α} {m' : ExtTreeMap Bytes β}
    {f : α → ID} {g : β → ID} (hf : ∀ k x, m[k]? = some x → k = (f x).val)
    (hg : ∀ k x, m'[k]? = some x → k = (g x).val)
    (hnone : ∀ id : ID, m[id.val]? = none ↔ m'[id.val]? = none) :
    m.toList.map (fun p => f p.2) = m'.toList.map fun p => g p.2 := by
  have hpairs : m.toList.map (fun p => (p.1, f p.2)) = m'.toList.map fun p => (p.1, g p.2) := by
    refine SortedPairs.eq_of_mem_iff (List.pairwise_map.mpr m.ordered_keys_toList)
      (List.pairwise_map.mpr m'.ordered_keys_toList) fun ⟨k, id⟩ => ?_
    rw [mem_map_toList hf, mem_map_toList hg, ne_eq, hnone]
  have hsnd := congrArg (List.map Prod.snd) hpairs
  rwa [List.map_map, List.map_map] at hsnd

lemma map_id_toList (h : Threads P recs box worker) (hcounted : Counted P P.hits (conds recs)) :
    recs.toList.map (·.2.id) = hitIds P.condCount P.hits := by
  rw [hitIds, collected, List.map_map]
  refine map_toList_congr h.key (fun _ _ => key_collect) fun id => ?_
  have hconds := hcounted id
  rw [conds] at hconds
  rw [getElem?_collect, Option.map_eq_none_iff, List.find?_eq_none, ← List.countP_eq_zero,
    ← Option.map_eq_none_iff, hconds]
  split <;> simp_all

lemma Mirrors.scanned (h : Mirrors P s a) (hcaller : s.caller = .scanning [])
    (hs : s.call P.order P.condCount (wildcards P.topics) = some t) :
    Mirrors P t a ∧ t.rank P < s.rank P := by
  have hcall := h.caller
  rw [hcaller] at hcall
  obtain ⟨before, left, hhits, hread, hcounted, htodo⟩ := hcall
  obtain rfl : left = [] := by simpa using hread.symm
  rw [List.append_nil] at hhits
  subst hhits
  simp only [Search.call, hcaller, map_id_toList h.threads hcounted] at hs
  cases hs
  refine ⟨⟨h.follows, h.threads, [], rfl, rfl, fun id hid => ?_, htodo⟩, ?_⟩
  · rw [hcounted, if_neg (mem_order.mp hid)]
  · simp [Search.rank, hcaller, Plan.ids]

lemma AsyncBuilder.sends_iff {count : UInt8} :
    r.sends count ↔ r.conditions.toNat ≤ count.toNat := by
  rw [AsyncBuilder.sends, decide_eq_true_iff, UInt8.not_lt, UInt8.le_iff_toNat_le]

lemma AsyncBuilder.toNat_conditions_count (r : AsyncBuilder) (count : UInt8) :
    (r.count count).conditions.toNat = r.conditions.toNat - count.toNat := by
  have := r.conditions.toNat_lt
  rw [AsyncBuilder.count, LogrecBuilder.matchedWith_eq]
  exact UInt8.toNat_ofNat_of_lt' (show _ < 256 by omega)

lemma Threads.conditions (hr : recs[id.val]? = some r) {n : ℕ} (hn : conds recs id = some n) :
    r.conditions.toNat = n := by
  rw [conds, hr] at hn
  exact Option.some.inj hn

lemma Mirrors.hitRecord (h : Mirrors P s a) {before left : List Hit} {hit : Hit}
    (hhits : P.hits = before ++ hit :: left) (hcounted : Counted P before (conds s.recs))
    (hr : r = s.recs[hit.id.val]?.getD (.start hit.id P.condCount hit.topicCount)) :
    r.id = hit.id ∧ r.Stands P hit.id ∧ a.box hit.id = r.ok ∧
      a.worker hit.id = r.routine.worker ∧
      r.conditions.toNat = P.condCount.toNat - hitsOn before hit.id := by
  have hconds := hcounted hit.id
  cases hfind : s.recs[hit.id.val]? with
  | some r' =>
    rw [hfind, Option.getD_some] at hr
    subst hr
    obtain ⟨hstands, hbox, hworker⟩ := h.threads.started _ _ hfind
    refine ⟨h.threads.id_eq hfind, hstands, hbox, hworker, ?_⟩
    rw [conds, hfind] at hconds
    split at hconds
    · cases hconds
    · exact Option.some.inj hconds
  | none =>
    rw [hfind, Option.getD_none] at hr
    subst hr
    obtain ⟨hbox, hworker⟩ := h.threads.fresh _ hfind
    have hzero : hitsOn before hit.id = 0 := by
      rw [conds, hfind] at hconds
      split at hconds
      · assumption
      · cases hconds
    have hfirst : (P.hits.find? fun h => h.id = hit.id) = some hit := by
      rw [hhits, List.find?_append, List.find?_eq_none.mpr (List.countP_eq_zero.mp hzero)]
      simp
    refine ⟨rfl, ?_, hbox, hworker, by rw [hzero]; rfl⟩
    simp [AsyncBuilder.Stands, AsyncBuilder.start, Plan.record, finalRecord, hfirst, hitTimes]

lemma Mirrors.hit (h : Mirrors P s a) {kv : Bytes × Bytes} {kvs : List (Bytes × Bytes)}
    (hcaller : s.caller = .scanning (kv :: kvs))
    (hs : s.call P.order P.condCount (wildcards P.topics) = some t) :
    Mirrors P t a ∧ t.rank P < s.rank P := by
  have hcall := h.caller
  rw [hcaller] at hcall
  obtain ⟨before, left, hhits, hread, hcounted, htodo⟩ := hcall
  obtain ⟨hit, left, rfl⟩ : ∃ hit left', left = hit :: left' := by
    cases left with
    | nil => simp at hread
    | cons hit left => exact ⟨hit, left, rfl⟩
  rw [List.map_cons, List.map_cons, List.cons.injEq] at hread
  obtain ⟨hkv, hread⟩ := hread
  simp only [Search.call, hcaller, hkv] at hs
  cases hs
  generalize hr : s.recs[hit.id.val]?.getD _ = r
  obtain ⟨hid, hstands, hbox, hworker, hconditions⟩ := h.hitRecord hhits hcounted hr.symm
  have hsucc : hitsOn (before ++ [hit]) hit.id = hitsOn before hit.id + 1 := by simp
  have hcount : Counted P (before ++ [hit]) (conds (s.recs.insert hit.id.val (r.count 1))) := by
    intro id
    rw [conds_insert, Function.update_apply, AsyncBuilder.toNat_conditions_count, hconditions]
    split
    · rename_i heq
      rw [heq, hsucc, if_neg (Nat.succ_ne_zero _), Nat.sub_sub]
      rfl
    · rename_i hne
      rw [hcounted id, show hitsOn (before ++ [hit]) id = hitsOn before id by
        simp [Ne.symm hne]]
  have hsends : r.sends 1 ↔ P.condCount.toNat ≤ hitsOn (before ++ [hit]) hit.id := by
    rw [AsyncBuilder.sends_iff, hconditions, hsucc, show (1 : UInt8).toNat = 1 from rfl]
    omega
  have hthreads := h.threads.insert (r := r.count 1) hid hstands hbox hworker
    fun _ _ => ⟨rfl, rfl⟩
  rw [scanOps] at htodo
  by_cases hsend : r.sends 1 = true
  · rw [if_pos (hsends.mp hsend)] at htodo
    rw [if_pos hsend]
    refine ⟨⟨h.follows, hthreads, before ++ [hit], left, ?_, hread, hcount, ?_, htodo⟩, ?_⟩
    · rw [hhits, List.append_assoc, List.singleton_append]
    · rw [hsucc]
      exact Nat.succ_ne_zero _
    · simp [Search.rank, hcaller]
  · rw [if_neg (hsends.not.mp hsend)] at htodo
    rw [if_neg hsend]
    refine ⟨⟨h.follows, hthreads, before ++ [hit], left, ?_, hread, hcount, htodo⟩, ?_⟩
    · rw [hhits, List.append_assoc, List.singleton_append]
    · simp [Search.rank, hcaller]

lemma Mirrors.send (h : Mirrors P s a) {rest : List (Op ID)} (htodo : a.todo = .post id :: rest)
    (hr : s.recs[id.val]? = some r) (hok : r.ok = false) {caller : Caller}
    (hcaller : At P (conds s.recs) rest caller) : ∃ b, Step a b ∧
      Mirrors P { caller, recs := s.recs.insert id.val { r with ok := true } } b := by
  obtain ⟨todo, box, worker⟩ := a
  obtain rfl : todo = .post id :: rest := htodo
  obtain ⟨hstands, hbox, hworker⟩ := h.threads.started id r hr
  have hstep : Step ⟨.post id :: rest, box, worker⟩ _ := .post (hbox.trans hok)
  refine ⟨_, hstep, h.step hstep hr { r with ok := true } rfl rfl hstands (by simp) hworker ?_
    hcaller⟩
  intro id' hne
  simp [hne]

lemma Plan.Gathered.skip {past : List ID} {res : List Log} (h : P.Gathered past res)
    (hfound : P.found id = false) : P.Gathered (past ++ [id]) res := by
  rw [Gathered, List.filter_append, List.filter_cons_of_neg (by simp [hfound]), List.filter_nil,
    List.append_nil]
  exact h

lemma Plan.Gathered.append {past : List ID} {res : List Log} (h : P.Gathered past res)
    (hfound : P.found id = true) {log : Log} (hlog : P.fetchLog id = .ok log) :
    P.Gathered (past ++ [id]) (res ++ [log]) := by
  rw [Gathered, List.filter_append, List.filter_cons_of_pos hfound, List.filter_nil,
    List.map_append, h, List.map_append, List.map_singleton, hlog]
  rfl

section

variable (h : Mirrors P s a) (hs : s.call P.order P.condCount (wildcards P.topics) = some t)
include h hs

lemma Mirrors.complete {ids : List ID} {res : List Log}
    (hcaller : s.caller = .finishing (id :: ids) res) :
    Mirrors P t a ∧ t.rank P < s.rank P := by
  have hcall := h.caller
  rw [hcaller] at hcall
  obtain ⟨past, hids, hgathered, hconds, htodo⟩ := hcall
  simp only [Search.call, hcaller, Option.bind_eq_bind, Option.bind_eq_some_iff] at hs
  obtain ⟨r, hr, hs⟩ := hs
  obtain ⟨hstands, hbox, hworker⟩ := h.threads.started id r hr
  have hid := h.threads.id_eq hr
  have hthreads := h.threads.insert (r := r.count (wildcards P.topics)) hid hstands hbox hworker
    fun _ _ => ⟨rfl, rfl⟩
  have hconditions : r.conditions.toNat = P.condCount.toNat - hitsOn P.hits id :=
    Threads.conditions hr (hconds id List.mem_cons_self)
  have hfound : P.found id = r.sends (wildcards P.topics) := by
    rw [Bool.eq_iff_iff, AsyncBuilder.sends_iff, hconditions, Plan.found, Plan.record,
      found_finalRecord]
    omega
  -- The identifiers are different, so the records that are left are as they were.
  have hne : ∀ id' ∈ ids, id' ≠ id := by
    have hnodup := nodup_order P.order P.condCount P.hits
    rw [show P.order.list _ = past ++ id :: ids from hids] at hnodup
    rintro id' hid' rfl
    exact (List.nodup_cons.mp hnodup.of_append_right).1 hid'
  have hconds' : ∀ id' ∈ ids, conds (s.recs.insert id.val (r.count (wildcards P.topics))) id' =
      some (P.condCount.toNat - hitsOn P.hits id') := by
    intro id' hid'
    rw [conds_insert, Function.update_of_ne (hne id' hid')]
    exact hconds id' (List.mem_cons_of_mem _ hid')
  rw [Plan.finish_cons, hfound] at htodo
  split at hs
  · rename_i hsends
    cases hs
    rw [if_pos hsends] at htodo
    refine ⟨⟨h.follows, hthreads, past, hids, hgathered, hconds', hfound.trans hsends, ?_, htodo⟩,
      by simp [Search.rank, hcaller]⟩
    rw [conds_insert, Function.update_self, AsyncBuilder.toNat_conditions_count,
      Nat.sub_eq_zero_of_le (AsyncBuilder.sends_iff.mp hsends)]
  · rename_i hsends
    cases hs
    rw [if_neg hsends] at htodo
    have hmatched : (r.count (wildcards P.topics)).isMatched = false := by
      rw [LogrecBuilder.isMatched, decide_eq_false_iff_not, ← UInt8.toNat_inj,
        AsyncBuilder.toNat_conditions_count]
      rw [AsyncBuilder.sends_iff] at hsends
      simp only [UInt8.toNat_zero]
      omega
    rw [Search.afterMatched, hmatched]
    refine ⟨⟨h.follows, hthreads, past ++ [id], ?_, hgathered.skip ?_, hconds', htodo⟩,
      by simp [Search.rank, hcaller]⟩
    · rw [hids, List.append_assoc, List.singleton_append]
    · rw [hfound, Bool.eq_false_iff]
      exact hsends

lemma Mirrors.build {ids : List ID} {res : List Log}
    (hcaller : s.caller = .building id ids res) :
    ∃ b, Step a b ∧ Mirrors P t b := by
  have hcall := h.caller
  rw [hcaller] at hcall
  obtain ⟨past, hids, hgathered, hconds, hfound, -, htodo⟩ := hcall
  simp only [Search.call, hcaller, Option.bind_eq_bind, Option.bind_eq_some_iff] at hs
  obtain ⟨r, hr, hs⟩ := hs
  obtain ⟨hstands, hbox, hworker⟩ := h.threads.started id r hr
  cases hroutine : r.routine with
  | waiting | fetching =>
    simp only [hroutine] at hs
    cases hs
  | done =>
    rw [hroutine] at hworker
    exact absurd hworker (h.follows.not_done htodo count_join_le_one)
  | sending failed =>
    rw [AsyncBuilder.Stands, hroutine] at hstands
    rw [hroutine] at hworker
    obtain ⟨todo, box, worker⟩ := a
    obtain rfl : todo = .join id :: P.finish ids := htodo
    have hstep : Step ⟨.join id :: P.finish ids, box, worker⟩ _ := .join hworker
    have hnext : ∀ {caller : Caller}, At P (conds s.recs) (P.finish ids) caller →
        Mirrors P { caller, recs := s.recs.insert id.val { r with routine := .done } }
          ⟨P.finish ids, box, Function.update worker id .done⟩ :=
      h.step hstep hr { r with routine := .done } rfl rfl trivial hbox (by simp [Routine.worker])
        fun id' hne => by simp [hne]
    cases failed with
    | true =>
      simp only [hroutine] at hs
      cases hs
      exact ⟨_, hstep, hnext hstands⟩
    | false =>
      simp only [hroutine] at hs
      cases hs
      refine ⟨_, hstep, hnext ⟨past ++ [id], ?_, hgathered.append hfound hstands, hconds, rfl⟩⟩
      rw [hids, List.append_assoc, List.singleton_append]

/-- A step of the caller is an operation, or none and a step nearer to it. -/
lemma Mirrors.call : (∃ b, Step a b ∧ Mirrors P t b) ∨ (Mirrors P t a ∧ t.rank P < s.rank P) := by
  have hcall := h.caller
  cases hcaller : s.caller with
  | scanning pairs =>
    cases pairs with
    | nil => exact .inr (h.scanned hcaller hs)
    | cons kv kvs => exact .inr (h.hit hcaller hs)
  | matching id kvs =>
    rw [hcaller] at hcall
    obtain ⟨before, left, hhits, hread, hcounted, -, htodo⟩ := hcall
    simp only [Search.call, hcaller, Option.bind_eq_bind, Option.bind_eq_some_iff,
      Option.guard_eq_some'] at hs
    obtain ⟨r, hr, -, hok, hs⟩ := hs
    cases hs
    exact .inl (h.send htodo hr hok ⟨before, left, hhits, hread, hcounted, rfl⟩)
  | finishing ids res =>
    cases ids with
    | nil =>
      rw [hcaller] at hcall
      obtain ⟨past, hids, hgathered, -, htodo⟩ := hcall
      simp only [Search.call, hcaller] at hs
      cases hs
      rw [List.append_nil] at hids
      exact .inr ⟨⟨h.follows, h.threads, hids ▸ hgathered, htodo⟩, by simp [Search.rank, hcaller]⟩
    | cons id ids => exact .inr (h.complete hs hcaller)
  | matchingAll id ids res =>
    rw [hcaller] at hcall
    obtain ⟨past, hids, hgathered, hconds, hfound, hzero, htodo⟩ := hcall
    simp only [Search.call, hcaller, Option.bind_eq_bind, Option.bind_eq_some_iff,
      Option.guard_eq_some'] at hs
    obtain ⟨r, hr, -, hok, hs⟩ := hs
    cases hs
    have hmatched : r.isMatched = true := by
      rw [LogrecBuilder.isMatched, decide_eq_true_iff, ← UInt8.toNat_inj]
      exact Threads.conditions hr hzero
    rw [Search.afterMatched, if_pos hmatched]
    exact .inl (h.send htodo hr hok ⟨past, hids, hgathered, hconds, hfound, hzero, rfl⟩)
  | building id ids res => exact .inl (h.build hs hcaller)
  | returned res | crashed e =>
    simp only [Search.call, hcaller] at hs
    cases hs

end

lemma Mirrors.next (h : Mirrors P s a) (hs : s.Step P.tt P.order P.topics P.failing t) :
    (∃ b, Step a b ∧ Mirrors P t b) ∨ (Mirrors P t a ∧ t.rank P < s.rank P) := by
  obtain ⟨action, hfails, hnext⟩ := hs
  cases action with
  | call => exact h.call hnext
  | routine id => exact .inl (h.routine hnext)
  | fetchFails id => exact .inl (h.fetchFails (hfails rfl) hnext)
  | scanFails =>
    simp only [Search.next, Search.scanFails] at hnext
    split at hnext
    · rename_i hcaller
      cases hnext
      exact .inr ⟨⟨h.follows, h.threads, hfails rfl⟩, by simp [Search.rank, hcaller]⟩
    · cases hnext

lemma mirrors_start (P : Plan) : Mirrors P (.start P.tt P.topics) (.start P.ops) where
  follows := follows_start paired_searchOps
  threads := ⟨by simp [Search.start], by simp [State.start], by simp [Search.start]⟩
  caller := by
    rw [Search.start, if_neg (Nat.not_lt.mpr P.length_le)]
    exact ⟨[], P.hits, rfl, P.read, fun id => by simp [conds], rfl⟩

/-! ### Where runs end -/

def Search.Returned (s : Search) : Prop := ∃ res, s.caller = .returned res

lemma exists_of_conds {n : ℕ} (h : conds s.recs id = some n) : ∃ r, s.recs[id.val]? = some r := by
  obtain ⟨r, hr, -⟩ := Option.map_eq_some_iff.mp h
  exact ⟨r, hr⟩

lemma isSome_routine (hover : s.isOver = false) (hr : s.recs[id.val]? = some r)
    (h : r.routine = .fetching ∨ r.routine = .waiting ∧ r.ok = true) :
    (s.routine P.tt id).isSome := by
  rcases h with h | ⟨h, hok⟩
  · cases hfetch : r.fetch P.tt <;> simp [Search.routine, hover, hr, h, hfetch, guard]
  · simp [Search.routine, hover, hr, h, hok, guard]

lemma Mirrors.send_or_receive (h : Mirrors P s a) (hover : s.isOver = false)
    (hfits : hitsOn P.hits id ≤ P.topics.length) {rest : List (Op ID)}
    (htodo : a.todo = .post id :: rest) (hr : s.recs[id.val]? = some r) :
    r.ok = false ∨ (s.routine P.tt id).isSome := by
  obtain ⟨-, hbox, hworker⟩ := h.threads.started id r hr
  cases hok : r.ok with
  | false => exact .inl rfl
  | true =>
    rw [← P.toNat_condCount] at hfits
    have hwaiting := h.follows.waiting htodo (count_post_le_two hfits) (hbox.trans hok)
    rw [hworker] at hwaiting
    refine .inr (isSome_routine hover hr (.inr ⟨?_, hok⟩))
    cases hroutine : r.routine with
    | waiting => rfl
    | fetching | sending _ | done =>
      rw [hroutine] at hwaiting
      cases hwaiting

/-- Until it has returned, the search can go on. -/
lemma Mirrors.exists_step (h : Mirrors P s a)
    (hfits : ∀ id, hitsOn P.hits id ≤ P.topics.length) (hs : ¬ s.Returned) :
    ∃ t, s.Step P.tt P.order P.topics P.failing t := by
  suffices (s.call P.order P.condCount (wildcards P.topics)).isSome ∨
      ∃ id, (s.routine P.tt id).isSome by
    rcases this with h | ⟨id, h⟩
    · obtain ⟨t, ht⟩ := Option.isSome_iff_exists.mp h
      exact ⟨t, .call, nofun, ht⟩
    · obtain ⟨t, ht⟩ := Option.isSome_iff_exists.mp h
      exact ⟨t, .routine id, nofun, ht⟩
  have hcall := h.caller
  cases hcaller : s.caller with
  | scanning pairs =>
    left
    rcases pairs with _ | ⟨kv, kvs⟩
    · simp [Search.call, hcaller]
    · simp only [Search.call, hcaller]
      cases Hit.read kv <;> rfl
  | matching id kvs =>
    rw [hcaller] at hcall
    obtain ⟨before, left, -, -, hcounted, hhit, htodo⟩ := hcall
    obtain ⟨r, hr⟩ := exists_of_conds ((hcounted id).trans (if_neg hhit))
    have hover : s.isOver = false := by simp [Search.isOver, hcaller]
    rcases h.send_or_receive hover (hfits id) htodo hr with hok | hroutine
    · exact .inl (by simp [Search.call, hcaller, hr, hok, guard])
    · exact .inr ⟨id, hroutine⟩
  | finishing ids res =>
    left
    rcases ids with _ | ⟨id, ids⟩
    · simp [Search.call, hcaller]
    · rw [hcaller] at hcall
      obtain ⟨past, -, -, hconds, -⟩ := hcall
      obtain ⟨r, hr⟩ := exists_of_conds (hconds id List.mem_cons_self)
      simp only [Search.call, hcaller, hr, Option.bind_eq_bind, Option.bind_some]
      split <;> rfl
  | matchingAll id ids res =>
    rw [hcaller] at hcall
    obtain ⟨past, -, -, -, -, hzero, htodo⟩ := hcall
    obtain ⟨r, hr⟩ := exists_of_conds hzero
    have hover : s.isOver = false := by simp [Search.isOver, hcaller]
    rcases h.send_or_receive hover (hfits id) htodo hr with hok | hroutine
    · exact .inl (by simp [Search.call, hcaller, hr, hok, guard])
    · exact .inr ⟨id, hroutine⟩
  | building id ids res =>
    rw [hcaller] at hcall
    obtain ⟨past, -, -, -, -, hzero, htodo⟩ := hcall
    obtain ⟨r, hr⟩ := exists_of_conds hzero
    obtain ⟨-, hbox, hworker⟩ := h.threads.started id r hr
    have hover : s.isOver = false := by simp [Search.isOver, hcaller]
    cases hroutine : r.routine with
    | waiting =>
      rw [hroutine] at hworker
      exact .inr ⟨id, isSome_routine hover hr (.inr ⟨hroutine, hbox ▸ h.follows.box htodo hworker⟩)⟩
    | fetching => exact .inr ⟨id, isSome_routine hover hr (.inl hroutine)⟩
    | sending failed =>
      left
      cases failed <;> simp [Search.call, hcaller, hr, hroutine]
    | done => exact .inl (by simp [Search.call, hcaller, hr, hroutine])
  | returned res => exact absurd ⟨res, hcaller⟩ hs
  | crashed e =>
    rw [hcaller] at hcall
    cases hcall

lemma Mirrors.gathered (h : Mirrors P s a) (hs : s.Returned) (hfailing : P.failing = false) :
    ∃ logs, s.caller = .returned (some logs) ∧ P.Gathered P.ids logs ∧ a.todo = [] := by
  obtain ⟨res, hcaller⟩ := hs
  have hcall := h.caller
  rw [hcaller] at hcall
  cases res with
  | none => exact absurd (hfailing.symm.trans hcall) nofun
  | some logs => exact ⟨logs, hcaller, hcall⟩

variable (P)

lemma Plan.ends {Q : Search → Prop} (hQ : ∀ {s a}, Mirrors P s a →
    (∀ t, ¬ s.Step P.tt P.order P.topics P.failing t) → Q s) :
    Ends (Search.Step P.tt P.order P.topics P.failing) Q (.start P.tt P.topics) :=
  Ends.of_simulation (R := Mirrors P) (Search.rank P) Mirrors.next hQ (mirrors_start P)
    (follows_start paired_searchOps).acc

lemma Plan.ends_returned (hfits : ∀ id, hitsOn P.hits id ≤ P.topics.length) :
    Ends (Search.Step P.tt P.order P.topics P.failing) Search.Returned
      (.start P.tt P.topics) := by
  refine P.ends fun h hend => ?_
  by_contra hs
  obtain ⟨t, ht⟩ := h.exists_step hfits hs
  exact hend t ht

lemma Plan.ends_gathered (hfits : ∀ id, hitsOn P.hits id ≤ P.topics.length)
    (hfailing : P.failing = false) :
    Ends (Search.Step P.tt P.order P.topics P.failing)
      (fun s => ∃ logs, s.caller = .returned (some logs) ∧ P.Gathered P.ids logs)
      (.start P.tt P.topics) := by
  refine P.ends fun {s _} h hend => ?_
  by_cases hs : s.Returned
  · obtain ⟨logs, hcaller, hgathered, -⟩ := h.gathered hs hfailing
    exact ⟨logs, hcaller, hgathered⟩
  · obtain ⟨t, ht⟩ := h.exists_step hfits hs
    exact absurd ht (hend t)

lemma Plan.ends_stuck {id : ID} (hmany : P.topics.length < hitsOn P.hits id)
    (hpos : 0 < P.topics.length) (hfailing : P.failing = false) :
    Ends (Search.Step P.tt P.order P.topics P.failing) (fun s => ¬ s.Returned)
      (.start P.tt P.topics) := by
  refine P.ends fun h _ hs => ?_
  obtain ⟨logs, -, -, htodo⟩ := h.gathered hs hfailing
  rw [← P.toNat_condCount] at hmany hpos
  exact absurd (h.follows.count_le_two htodo) (Nat.not_le.mpr (two_lt_count_post hpos hmany))

end Mirrors

/-! ### Agreement with the synchronous search -/

section Sync

variable {tt : Index} {topics : List (List HashBytes)} {syncOrder : MapOrder LogrecBuilder}
  {res : List Log} {hits : List Hit}

lemma Index.map_read_pairs (hhits : tt.hits topics = .ok hits) :
    (tt.pairs topics).map Hit.read = hits.map .ok := by
  obtain ⟨scans, hscans, hflat⟩ := bind_eq_ok_iff.mp hhits
  cases hflat
  clear hhits
  rw [mapM_eq_ok_iff] at hscans
  rw [Index.pairs]
  generalize alternatives topics = l at hscans ⊢
  induction l generalizing scans with
  | nil =>
    obtain rfl : scans = [] := by simpa using hscans.symm
    rfl
  | cons a l ih =>
    obtain _ | ⟨scan, scans⟩ := scans
    · cases hscans
    · rw [List.map_cons, List.map_cons, List.cons.injEq, Index.hitsOf, mapM_eq_ok_iff] at hscans
      rw [List.flatMap_cons, List.map_append, hscans.1, ih _ hscans.2, List.flatten_cons,
        List.map_append]

/-- A search that `fetchSync` can do. -/
def Plan.ofSync (hsync : tt.fetchSync syncOrder topics = .ok res)
    (hhits : tt.hits topics = .ok hits) (order : MapOrder ID) (failing : Bool) : Plan where
  tt := tt
  topics := topics
  hits := hits
  order := order
  failing := failing
  length_le := (Index.fetchSync_eq_ok_iff.mp hsync).1
  read := Index.map_read_pairs hhits
  fetches id hhit hfound := by
    obtain ⟨-, hits', hhits', hres⟩ := Index.fetchSync_eq_ok_iff.mp hsync
    obtain rfl : hits' = hits := Except.ok.inj (hhits'.symm.trans hhits)
    have hmem : finalRecord (.ofNat topics.length) hits' id ∈
        collected (.ofNat topics.length) hits' := by
      rw [← map_finalRecord]
      exact List.mem_map_of_mem (mem_hitIds.mpr hhit)
    have hlog := List.mem_map_of_mem (f := LogrecBuilder.fetchLog tt (wildcards topics))
      (List.mem_filter.mpr ⟨(syncOrder.perm _).mem_iff.mpr hmem, hfound⟩)
    rw [hres] at hlog
    obtain ⟨log, -, hlog⟩ := List.mem_map.mp hlog
    exact ⟨log, hlog.symm⟩

lemma Plan.Gathered.perm {P : Plan} (hsync : P.tt.fetchSync syncOrder P.topics = .ok res)
    (hhits : P.tt.hits P.topics = .ok P.hits) {logs : List Log} (h : P.Gathered P.ids logs) :
    logs.Perm res := by
  obtain ⟨-, hits, hhits', hres⟩ := Index.fetchSync_eq_ok_iff.mp hsync
  obtain rfl : hits = P.hits := Except.ok.inj (hhits'.symm.trans hhits)
  have hrecords : (P.ids.map P.record).Perm
      (syncOrder.list (collected (.ofNat P.topics.length) P.hits)) := by
    refine ((P.order.perm _).map _).trans (.trans (.of_eq ?_) (syncOrder.perm _).symm)
    exact map_finalRecord ..
  have hfetched := (hrecords.filter (LogrecBuilder.found (wildcards P.topics))).map
    (LogrecBuilder.fetchLog P.tt (wildcards P.topics))
  rw [hres, List.filter_map, List.map_map] at hfetched
  refine (List.map_perm_map_iff fun _ _ => Except.ok.inj).mp (.trans (.of_eq ?_) hfetched)
  exact h.symm

/-- The same records from the last to the first. -/
def MapOrder.reverse {α : Type} (order : MapOrder α) : MapOrder α where
  list l := (order.list l).reverse
  perm l := (List.reverse_perm _).trans (order.perm l)

lemma Plan.Gathered.reverse {hsync : tt.fetchSync syncOrder topics = .ok res}
    {hhits : tt.hits topics = .ok hits} {order : MapOrder ID} {failing : Bool}
    {logs logs' : List Log}
    (h : (Plan.ofSync hsync hhits order failing).Gathered
      (Plan.ofSync hsync hhits order failing).ids logs)
    (h' : (Plan.ofSync hsync hhits order.reverse failing).Gathered
      (Plan.ofSync hsync hhits order.reverse failing).ids logs') : logs' = logs.reverse := by
  have hmap : (logs.map (Except.ok (ε := Failure))).reverse = logs'.map .ok := by
    rw [← h, ← h', ← List.map_reverse, ← List.filter_reverse]
    rfl
  rw [← List.map_reverse] at hmap
  exact (List.map_injective_iff.mpr (fun _ _ => Except.ok.inj) hmap).symm

lemma Search.ends_perm (hsync : tt.fetchSync syncOrder topics = .ok res)
    (hhits : tt.hits topics = .ok hits) (hfits : ∀ id, hitsOn hits id ≤ topics.length)
    (order : MapOrder ID) : Ends (Search.Step tt order topics false)
      (fun s => ∃ logs, s.caller = .returned (some logs) ∧ logs.Perm res) (.start tt topics) := by
  refine ((Plan.ofSync hsync hhits order false).ends_gathered hfits rfl).imp ?_
  rintro s ⟨logs, hcaller, hgathered⟩
  exact ⟨logs, hcaller, hgathered.perm hsync hhits⟩

/-- If a log is hit by more scans than the query has positions, no run returns without an error of
the database. -/
lemma Search.ends_stuck (hsync : tt.fetchSync syncOrder topics = .ok res)
    (hhits : tt.hits topics = .ok hits) {id : ID} (hmany : topics.length < hitsOn hits id)
    (order : MapOrder ID) :
    Ends (Search.Step tt order topics false) (fun s => ¬ s.Returned) (.start tt topics) := by
  refine (Plan.ofSync hsync hhits order false).ends_stuck hmany ?_ rfl
  rw [Nat.pos_iff_ne_zero]
  intro hzero
  obtain rfl : topics = [] := List.eq_nil_of_length_eq_zero hzero
  cases hhits
  exact absurd hmany (Nat.lt_irrefl 0)

/-- `fetchAsync` returns in every interleaving, without errors of the database with the result of
`fetchSync`, exactly if no log is hit by more scans than the query has positions. -/
theorem fetchAsync_returns_iff (hsync : tt.fetchSync syncOrder topics = .ok res)
    (hhits : tt.hits topics = .ok hits) :
    ((∀ order failing, Ends (Search.Step tt order topics failing) Search.Returned
        (.start tt topics)) ∧
      ∀ order, Ends (Search.Step tt order topics false)
        (fun s => ∃ logs, s.caller = .returned (some logs) ∧ logs.Perm res) (.start tt topics)) ↔
    ∀ id, hitsOn hits id ≤ topics.length := by
  constructor
  · rintro ⟨hreturns, -⟩ id
    by_contra hmany
    rw [Nat.not_le] at hmany
    obtain ⟨s, hrun, hend, hstuck⟩ :=
      (Search.ends_stuck hsync hhits hmany OneTopic.keyOrder).exists_end
    exact hstuck ((hreturns OneTopic.keyOrder false).2 s hrun hend)
  · intro hfits
    exact ⟨fun order failing => (Plan.ofSync hsync hhits order failing).ends_returned hfits,
      Search.ends_perm hsync hhits hfits⟩

/-- A log is hit at most once for each position. -/
lemma Index.Holds.hitsOn_le {logs : List Log} (h : tt.Holds logs) (hlogs : Pushable logs)
    (htopics : topics.length ≤ maxCount) (hnodup : ∀ cond ∈ topics, cond.Nodup)
    (hhits : tt.hits topics = .ok hits) (id : ID) : hitsOn hits id ≤ topics.length := by
  obtain ⟨hits', hhits', hmem, hcount⟩ := h.hits hlogs htopics
  obtain rfl : hits' = hits := Except.ok.inj (hhits'.symm.trans hhits)
  rcases Nat.eq_zero_or_pos (hitsOn hits' id) with hzero | hpos
  · rw [hzero]
    exact Nat.zero_le _
  · obtain ⟨hit, hhit, hid⟩ := List.countP_pos_iff.mp hpos
    obtain ⟨log, hlog, rfl⟩ := hmem hit hhit
    obtain rfl : log.id = id := by simpa using hid
    have hsum := sum_le_length (f := share log) (l := topics.zipIdx) fun e he =>
      share_le_one (hnodup e.1 (List.zipIdx_map_fst 0 topics ▸ List.mem_map_of_mem he))
    rw [← hitCount_add_wildcards, List.length_zipIdx] at hsum
    rw [hitsOn, hcount log hlog]
    omega

end Sync

namespace OneTopic

def index : Index := (Index.empty.push [log]).1

/-- Another log of the transaction, with a second topic. -/
def other : Log := { log with topics := [hash 1, hash 2], index := 1 }

def both : Index := (Index.empty.push [log, other]).1

/-- Both logs are found by their first topic, with a wildcard after it. -/
theorem fetchAsync_returns_both :
    (∀ order failing, Ends (Search.Step both order [[hash 1], []] failing) Search.Returned
        (.start both [[hash 1], []])) ∧
      ∀ order, Ends (Search.Step both order [[hash 1], []] false) (fun s => ∃ logs,
        s.caller = .returned (some logs) ∧ logs.Perm [log.indexed, other.indexed])
        (.start both [[hash 1], []]) :=
  (fetchAsync_returns_iff (show both.fetchSync keyOrder [[hash 1], []] =
      .ok [log.indexed, other.indexed] by decide +kernel)
    (show both.hits [[hash 1], []] = .ok [⟨log.id, 1⟩, ⟨other.id, 2⟩] by decide +kernel)).mpr
    fun _ => List.countP_le_length

/-- Asked for its topic twice, the log is returned by `fetchSync`, and `fetchAsync` gets stuck. -/
theorem fetchAsync_repeated :
    index.fetchSync keyOrder [[hash 1, hash 1]] = .ok [log.indexed] ∧
      ∃ s, Relation.ReflTransGen (Search.Step index keyOrder [[hash 1, hash 1]] false)
          (.start index [[hash 1, hash 1]]) s ∧
        (∀ t, ¬ Search.Step index keyOrder [[hash 1, hash 1]] false s t) ∧ ¬ s.Returned := by
  have hsync : index.fetchSync keyOrder [[hash 1, hash 1]] = .ok [log.indexed] := by
    decide +kernel
  have hhits : index.hits [[hash 1, hash 1]] = .ok [⟨log.id, 1⟩, ⟨log.id, 1⟩] := by
    decide +kernel
  have hmany : 1 < hitsOn [⟨log.id, 1⟩, ⟨log.id, 1⟩] log.id := by decide +kernel
  exact ⟨hsync, (Search.ends_stuck hsync hhits hmany keyOrder).exists_end⟩

end OneTopic

end Lachesis.Topicsdb
