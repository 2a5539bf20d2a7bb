import Lachesis.Core.Run
import Lachesis.Core.Tally
import Lachesis.Inter.Event

/-!
# The fetcher

Peers announce hashes of events, and the fetcher requests those that are of interest. It keeps who
announced what, from whom each event is being fetched and since when, and a counter of announces for
each peer against flooding. `processNotifications` cleans up what expired and then takes a
notification, an injection of events or the tick of its timer.

Times are in nanoseconds since the zero `time.Time`. Every read of the clock, every draw of a random
number and the order in which Go ranges over a map are inputs of a step.
-/

namespace Lachesis

open Std Lachesis.Core

/-- `announcesBatch`, with functions of type `φ` to request events. -/
structure AnnouncesBatch (φ : Type) where
  hashes : List EventID
  time : ℤ
  peer : String
  fetchEvents : φ

/-- `oneAnnounce` -/
structure OneAnnounce (φ : Type) where
  batch : AnnouncesBatch φ
  i : ℕ

/-- `inject` -/
structure Inject (φ : Type) where
  events : List Event
  time : ℤ
  peer : String
  fetchEvents : φ

/-- A call of a peer's `fetchEvents`. -/
structure FetchRequest (φ : Type) where
  peer : String
  fetchEvents : φ
  hashes : List EventID

/-- What a step of the timer reads: the order of the keys of `announced`, the time of the tick, the
clock when an event's oldest announce and its last request are compared with it, and the random
number drawn for the event. -/
structure Tick where
  all : List EventID
  now : ℤ
  atOldest : EventID → ℤ
  atFetching : EventID → ℤ
  rand : EventID → ℕ

/-- `Fetcher` -/
structure Fetcher (φ : Type) where
  announces : ExtTreeMap String ℤ
  announced : ExtTreeMap EventID (List (OneAnnounce φ))
  fetching : ExtTreeMap EventID (OneAnnounce φ)
  fetchingTime : ExtTreeMap EventID ℤ

namespace Fetcher

variable {φ : Type}

def forgetTimeout : ℤ := 60000000000

def arriveTimeout : ℤ := 1000000000

def gatherSlack : ℤ := 100000000

def fetchTimeout : ℤ := 10000000000

def hashLimit : ℤ := 3000

def maxAnnounceBatch : ℕ := 256

def new : Fetcher φ := ⟨∅, ∅, ∅, ∅⟩

def forgetHash (f : Fetcher φ) (hash : EventID) : Fetcher φ where
  announces := (f.announced.getD hash []).foldl
    (fun announces announce => decrement announces announce.batch.peer) f.announces
  announced := f.announced.erase hash
  fetching := f.fetching.erase hash
  fetchingTime := f.fetchingTime.erase hash

/-- `cleanupExpiredEvents`, which goes through `fetching` in the order `ids`. -/
def cleanupExpiredEvents (ids : List EventID) (clock : EventID → ℤ) (f : Fetcher φ) : Fetcher φ :=
  ids.foldl (fun f id =>
    match f.fetching[id]? with
    | none => f
    | some announce =>
      if clock id - announce.batch.time > fetchTimeout then f.forgetHash id else f) f

/-! ### Notifications -/

/-- One round of the loop over the hashes of a notification: the fetcher, the peer's counter and the
hashes to fetch. -/
def addAnnounce (notification : AnnouncesBatch φ) (acc : Fetcher φ × ℤ × List EventID)
    (entry : EventID × ℕ) : Fetcher φ × ℤ × List EventID :=
  let (f, count, toFetch) := acc
  let (id, i) := entry
  let ann : OneAnnounce φ := ⟨notification, i⟩
  let f := { f with announced := f.announced.insert id (f.announced.getD id [] ++ [ann]) }
  if id ∈ f.fetching then (f, count + 1, toFetch)
  else
    ({ f with
        fetching := f.fetching.insert id ann
        fetchingTime := f.fetchingTime.insert id notification.time },
      count + 1, toFetch ++ [id])

/-- The case of `processNotifications` for a notification, with the call of its `fetchEvents`. -/
def onNotification (onlyInterested : List EventID → List EventID)
    (notification : AnnouncesBatch φ) (f : Fetcher φ) : Fetcher φ × List (FetchRequest φ) :=
  if notification.peer.length = 0 then (f, [])
  else
    let count := f.announces.getD notification.peer 0
    if count + notification.hashes.length > hashLimit then (f, [])
    else
      let notification := { notification with hashes := onlyInterested notification.hashes }
      if notification.hashes.length = 0 then (f, [])
      else
        let (f, count, toFetch) :=
          notification.hashes.zipIdx.foldl (addAnnounce notification) (f, count, [])
        ({ f with announces := f.announces.insert notification.peer count },
          if toFetch.length ≠ 0 then [⟨notification.peer, notification.fetchEvents, toFetch⟩]
          else [])

/-! ### Injections -/

/-- `Notify`: the batches it sends to the channel. -/
def notify (peer : String) (hashes : List EventID) (t : ℤ) (fetchEvents : φ) :
    List (AnnouncesBatch φ) :=
  (hashes.toChunks maxAnnounceBatch).map fun hashes => ⟨hashes, t, peer, fetchEvents⟩

/-- `OverloadedPeer`; `busy` if the channels are long or the heavy checks overloaded. -/
def overloadedPeer (busy : Bool) (peer : String) (f : Fetcher φ) : Bool :=
  busy || f.announced.size > hashLimit || f.announces.getD peer 0 > hashLimit / 2

/-- One round of the loop over the events injected, with the parents that are not being fetched. -/
def addEvent (acc : Fetcher φ × List EventID) (e : Event) : Fetcher φ × List EventID :=
  (acc.1.forgetHash e.hash, acc.2 ++ e.parents.filter (· ∉ acc.1.fetching))

/-- The case of `processNotifications` for an injection, with the notifications it sends itself. -/
def onInject (onlyInterested : List EventID → List EventID) (busy : Bool) (op : Inject φ)
    (f : Fetcher φ) : Fetcher φ × List (AnnouncesBatch φ) :=
  let (f, parents) := op.events.foldl addEvent (f, [])
  let parents := onlyInterested parents
  if parents.length ≠ 0 ∧ f.overloadedPeer busy op.peer = false then
    (f, notify op.peer parents op.time op.fetchEvents)
  else (f, [])

/-! ### The timer -/

/-- One round of the loop over the events that did not arrive, with the hashes to request from each
peer. -/
def refetch (tick : Tick) (acc : Fetcher φ × ExtTreeMap String (List EventID)) (e : EventID) :
    Except Fault (Fetcher φ × ExtTreeMap String (List EventID)) :=
  let (f, request) := acc
  match f.announced.getD e [] with
  | [] => .error .indexOutOfRange
  | oldest :: rest =>
    if tick.atOldest e - oldest.batch.time > forgetTimeout then .ok (f.forgetHash e, request)
    else if tick.atFetching e - f.fetchingTime.getD e 0 > arriveTimeout - gatherSlack then
      let announce := (oldest :: rest).get
        ⟨tick.rand e % (rest.length + 1), Nat.mod_lt _ (Nat.succ_pos _)⟩
      .ok ({ f with
              fetching := f.fetching.insert e announce
              fetchingTime := f.fetchingTime.insert e tick.now },
        request.insert announce.batch.peer (request.getD announce.batch.peer [] ++ [e]))
    else .ok (f, request)

/-- The request sent for a peer. -/
def send (f : Fetcher φ) (request : String × List EventID) : Except Fault (FetchRequest φ) :=
  match request.2 with
  | [] => .error .indexOutOfRange
  | first :: _ =>
    match f.fetching[first]? with
    | none => .error .nilDereference
    | some announce => .ok ⟨request.1, announce.batch.fetchEvents, request.2⟩

/-- The case of `processNotifications` for the timer, with the requests it sends. -/
def onTimer (onlyInterested : List EventID → List EventID) (tick : Tick) (f : Fetcher φ) :
    Except Fault (Fetcher φ × List (FetchRequest φ)) := do
  let notArrived := onlyInterested tick.all
  let (f, request) ← notArrived.foldlM (refetch tick) (f, ∅)
  let f := (tick.all.filter (· ∉ notArrived)).foldl forgetHash f
  let requests ← request.toList.mapM f.send
  return (f, requests)

/-! ### Runs -/

/-- What `OnlyInterested` may return: some of the hashes it was given. -/
def Selects (onlyInterested : List EventID → List EventID) : Prop :=
  ∀ hashes, (onlyInterested hashes).Subperm hashes

/-- The fetcher after steps taken in any order, with the notifications it received. -/
inductive Run : List (AnnouncesBatch φ) → Fetcher φ → Prop
  | new : Run [] new
  | notification {seen f onlyInterested} (notification : AnnouncesBatch φ) (h : Run seen f)
      (hselects : Selects onlyInterested) :
      Run (notification :: seen) (f.onNotification onlyInterested notification).1
  | inject {seen f onlyInterested} (busy : Bool) (op : Inject φ) (h : Run seen f)
      (hselects : Selects onlyInterested) : Run seen (f.onInject onlyInterested busy op).1
  | timer {seen f f' onlyInterested tick requests} (h : Run seen f)
      (hselects : Selects onlyInterested) (hall : tick.all.Perm f.announced.keys)
      (hrun : f.onTimer onlyInterested tick = .ok (f', requests)) : Run seen f'
  | cleanup {seen f ids} (clock : EventID → ℤ) (h : Run seen f)
      (hids : ids.Perm f.fetching.keys) : Run seen (f.cleanupExpiredEvents ids clock)

/-- How many entries with that peer the lists of `announced` hold. -/
def entries (f : Fetcher φ) (peer : String) : ℕ := tally (·.batch.peer) f.announced peer

/-- The three maps by hash have the same keys, and no list is empty. -/
structure Keyed (f : Fetcher φ) : Prop where
  mem_fetching : ∀ id, id ∈ f.fetching ↔ id ∈ f.announced
  mem_fetchingTime : ∀ id, id ∈ f.fetchingTime ↔ id ∈ f.announced
  ne_nil : ∀ (id : EventID) announces, f.announced[id]? = some announces → announces ≠ []

/-- The four maps are in step. -/
structure Synced (f : Fetcher φ) : Prop extends Keyed f where
  counts : Counts f.announces f.entries
  limited : ∀ peer, f.entries peer ≤ hashLimit

/-- The peer announced the hash in one of the notifications, with that function to request it. -/
def Announced (seen : List (AnnouncesBatch φ)) (peer : String) (fetchEvents : φ) (id : EventID) :
    Prop :=
  ∃ batch ∈ seen, batch.peer = peer ∧ batch.fetchEvents = fetchEvents ∧ id ∈ batch.hashes

/-- The entries of `announced` are announces that were received. -/
def Received (seen : List (AnnouncesBatch φ)) (f : Fetcher φ) : Prop :=
  ∀ id, ∀ a ∈ f.announced.getD id [], Announced seen a.batch.peer a.batch.fetchEvents id

/-- The request uses the function with which the peer announced the first of the hashes, and the
peer announced all of them. -/
structure Fair (seen : List (AnnouncesBatch φ)) (r : FetchRequest φ) : Prop where
  head : ∃ first, r.hashes.head? = some first ∧ Announced seen r.peer r.fetchEvents first
  all : ∀ id ∈ r.hashes, ∃ fetchEvents, Announced seen r.peer fetchEvents id

/-! ### Forgetting a hash -/

section Steps

variable {seen : List (AnnouncesBatch φ)} {f : Fetcher φ} {id : EventID}
  {onlyInterested : List EventID → List EventID}

section

variable (hash : EventID)
include hash

@[simp] lemma announced_forgetHash :
    (f.forgetHash hash).announced = f.announced.erase hash := rfl

@[simp] lemma fetching_forgetHash :
    (f.forgetHash hash).fetching = f.fetching.erase hash := rfl

@[simp] lemma fetchingTime_forgetHash :
    (f.forgetHash hash).fetchingTime = f.fetchingTime.erase hash := rfl

/-- The announces of a forgotten event are no longer counted. -/
lemma entries_forgetHash_add (peer : String) :
    (f.forgetHash hash).entries peer +
      (f.announced.getD hash []).countP (fun a => a.batch.peer = peer) = f.entries peer :=
  tally_erase_add

lemma Keyed.forgetHash (h : Keyed f) : Keyed (f.forgetHash hash) where
  mem_fetching id := by simp [h.mem_fetching]
  mem_fetchingTime id := by simp [h.mem_fetchingTime]
  ne_nil id announces hid := by
    rw [announced_forgetHash, ExtTreeMap.getElem?_erase] at hid
    split at hid
    · cases hid
    · exact h.ne_nil id announces hid

lemma Synced.forgetHash (h : Synced f) : Synced (f.forgetHash hash) where
  toKeyed := h.toKeyed.forgetHash hash
  counts := h.counts.decrement_all (entries_forgetHash_add hash)
  limited peer := by
    have hlimit := h.limited peer
    rw [← entries_forgetHash_add hash peer] at hlimit
    omega

lemma Received.forgetHash (h : Received seen f) : Received seen (f.forgetHash hash) := by
  intro id a ha
  rw [announced_forgetHash, ExtTreeMap.getD_erase] at ha
  split at ha
  · cases ha
  · exact h id a ha

/-- The maps are in step, and the announces are of those received. -/
structure Kept (seen : List (AnnouncesBatch φ)) (f : Fetcher φ) : Prop where
  synced : Synced f
  received : Received seen f

/-- Forgetting an event keeps the invariant. -/
lemma Kept.forgetHash (h : Kept seen f) : Kept seen (f.forgetHash hash) :=
  ⟨h.synced.forgetHash hash, h.received.forgetHash hash⟩

end

lemma Kept.forget_all (h : Kept seen f) (hashes : List EventID) :
    Kept seen (hashes.foldl Fetcher.forgetHash f) := by
  induction hashes generalizing f with
  | nil => exact h
  | cons hash hashes ih => exact ih (h.forgetHash hash)

lemma Kept.new : Kept [] (new : Fetcher φ) where
  synced := {
    mem_fetching := by simp [Fetcher.new]
    mem_fetchingTime := by simp [Fetcher.new]
    ne_nil := by simp [Fetcher.new]
    counts := by
      intro peer
      simp [Fetcher.new, entries]
    limited := by
      intro peer
      simp [Fetcher.new, entries, hashLimit] }
  received := by simp [Received, Fetcher.new]

lemma Kept.cleanupExpiredEvents (h : Kept seen f) (ids : List EventID) (clock : EventID → ℤ) :
    Kept seen (f.cleanupExpiredEvents ids clock) := by
  rw [Fetcher.cleanupExpiredEvents]
  induction ids generalizing f with
  | nil => exact h
  | cons id ids ih =>
    rw [List.foldl_cons]
    apply ih
    split
    · exact h
    · split
      · exact h.forgetHash id
      · exact h

lemma Kept.onInject (h : Kept seen f) (busy : Bool) (op : Inject φ) :
    Kept seen (f.onInject onlyInterested busy op).1 := by
  have hloop : ∀ (events : List Event) (acc : Fetcher φ × List EventID), Kept seen acc.1 →
      Kept seen (events.foldl addEvent acc).1 := by
    intro events
    induction events with
    | nil => exact fun acc hacc => hacc
    | cons e events ih => exact fun acc hacc => ih _ (hacc.forgetHash e.hash)
  have hevents := hloop op.events (f, []) h
  simp only [Fetcher.onInject]
  split <;> exact hevents

/-! ### Notifications -/

lemma Received.cons (h : Received seen f) (notification : AnnouncesBatch φ) :
    Received (notification :: seen) f := by
  intro id a ha
  obtain ⟨batch, hbatch, hrest⟩ := h id a ha
  exact ⟨batch, List.mem_cons_of_mem _ hbatch, hrest⟩

/-- The loop over the hashes of a notification, `k` rounds after it began at `f`: the counters wait
for the end of the loop. -/
structure Adding (notification : AnnouncesBatch φ) (seen : List (AnnouncesBatch φ)) (f : Fetcher φ)
    (k : ℕ) (acc : Fetcher φ × ℤ × List EventID) : Prop where
  announces : acc.1.announces = f.announces
  entries : ∀ peer, acc.1.entries peer =
    f.entries peer + if notification.peer = peer then k else 0
  count : acc.2.1 = f.entries notification.peer + k
  keyed : Keyed acc.1
  received : Received seen acc.1

section Notification

variable {notification : AnnouncesBatch φ} {acc : Fetcher φ × ℤ × List EventID}

@[simp] lemma announces_addAnnounce (i : ℕ) :
    (addAnnounce notification acc (id, i)).1.announces = acc.1.announces := by
  simp only [addAnnounce]
  split <;> rfl

@[simp] lemma announced_addAnnounce (i : ℕ) :
    (addAnnounce notification acc (id, i)).1.announced =
      acc.1.announced.insert id (acc.1.announced.getD id [] ++ [⟨notification, i⟩]) := by
  simp only [addAnnounce]
  split <;> rfl

@[simp] lemma count_addAnnounce (i : ℕ) :
    (addAnnounce notification acc (id, i)).2.1 = acc.2.1 + 1 := by
  simp only [addAnnounce]
  split <;> rfl

/-- An announce counts for the peer that sent it. -/
lemma entries_addAnnounce (i : ℕ) (peer : String) :
    (addAnnounce notification acc (id, i)).1.entries peer =
      acc.1.entries peer + if notification.peer = peer then 1 else 0 := by
  rw [entries, announced_addAnnounce, tally_insert_append]
  rfl

lemma Keyed.addAnnounce (h : Keyed acc.1) (i : ℕ) :
    Keyed (addAnnounce notification acc (id, i)).1 := by
  have hid := h.mem_fetching id
  refine ⟨?_, ?_, ?_⟩
  · intro id'
    rw [announced_addAnnounce, ExtTreeMap.mem_insert, ← h.mem_fetching id']
    simp only [Fetcher.addAnnounce]
    split
    · rename_i hfetching
      refine (or_iff_right_of_imp ?_).symm
      intro heq
      obtain rfl : id = id' := by simpa using heq
      exact hfetching
    · exact ExtTreeMap.mem_insert
  · intro id'
    rw [announced_addAnnounce, ExtTreeMap.mem_insert, ← h.mem_fetchingTime id']
    simp only [Fetcher.addAnnounce]
    split
    · rename_i hfetching
      refine (or_iff_right_of_imp ?_).symm
      intro heq
      obtain rfl : id = id' := by simpa using heq
      exact (h.mem_fetchingTime id).mpr (hid.mp hfetching)
    · exact ExtTreeMap.mem_insert
  · intro id' announces hget
    rw [announced_addAnnounce, ExtTreeMap.getElem?_insert] at hget
    split at hget
    · cases hget
      simp
    · exact h.ne_nil id' announces hget

lemma Received.addAnnounce (h : Received seen acc.1) (i : ℕ)
    (hid : Announced seen notification.peer notification.fetchEvents id) :
    Received seen (addAnnounce notification acc (id, i)).1 := by
  intro id' a ha
  rw [announced_addAnnounce, ExtTreeMap.getD_insert] at ha
  split at ha
  · rename_i heq
    obtain rfl : id = id' := by simpa using heq
    rw [List.mem_append, List.mem_singleton] at ha
    obtain ha | rfl := ha
    · exact h id a ha
    · exact hid
  · exact h id' a ha

lemma Adding.addAnnounce {k : ℕ} (h : Adding notification seen f k acc) (i : ℕ)
    (hid : Announced seen notification.peer notification.fetchEvents id) :
    Adding notification seen f (k + 1) (addAnnounce notification acc (id, i)) where
  announces := by simp [h.announces]
  entries peer := by
    rw [entries_addAnnounce, h.entries]
    split <;> rfl
  count := by simp [h.count, add_assoc]
  keyed := h.keyed.addAnnounce i
  received := h.received.addAnnounce i hid

lemma Adding.foldl {k : ℕ} (h : Adding notification seen f k acc) (l : List (EventID × ℕ))
    (hl : ∀ entry ∈ l, Announced seen notification.peer notification.fetchEvents entry.1) :
    Adding notification seen f (k + l.length) (l.foldl (Fetcher.addAnnounce notification) acc) := by
  induction l generalizing k acc with
  | nil => exact h
  | cons entry l ih =>
    have hfirst := h.addAnnounce entry.2 (hl entry List.mem_cons_self)
    have hrest := ih hfirst fun entry' hentry => hl entry' (List.mem_cons_of_mem _ hentry)
    rw [List.foldl_cons, List.length_cons, add_comm l.length, ← add_assoc]
    exact hrest

/-- The loop ends with the counter of the peer being set. -/
lemma Adding.setAnnounces {k : ℕ} (h : Adding notification seen f k acc) (hf : Synced f)
    (hk : 0 < k) (hlimit : f.entries notification.peer + (k : ℤ) ≤ hashLimit) :
    Kept seen { acc.1 with announces := acc.1.announces.insert notification.peer acc.2.1 } := by
  have hpeer := h.entries notification.peer
  rw [if_pos rfl] at hpeer
  have hother : ∀ peer, peer ≠ notification.peer → acc.1.entries peer = f.entries peer := by
    intro peer hne
    rw [h.entries, if_neg hne.symm, add_zero]
  refine ⟨⟨⟨h.keyed.mem_fetching, h.keyed.mem_fetchingTime, h.keyed.ne_nil⟩, ?_, ?_⟩, h.received⟩
  · change Counts _ acc.1.entries
    apply Counts.insert
    · intro peer hne
      rw [h.announces, hother peer hne]
      exact hf.counts peer
    · rw [h.count, hpeer, Nat.cast_add]
    · omega
  · intro peer
    change (acc.1.entries peer : ℤ) ≤ hashLimit
    by_cases hne : peer = notification.peer
    · rw [hne, hpeer, Nat.cast_add]
      exact hlimit
    · rw [hother peer hne]
      exact hf.limited peer

/-- A notification is taken in only up to the limit of its peer. -/
lemma Kept.onNotification (h : Kept seen f) (hselects : Selects onlyInterested)
    (notification : AnnouncesBatch φ) :
    Kept (notification :: seen) (f.onNotification onlyInterested notification).1 := by
  have hsame : Kept (notification :: seen) f := ⟨h.synced, h.received.cons notification⟩
  simp only [Fetcher.onNotification]
  split
  · exact hsame
  split
  · exact hsame
  split
  · exact hsame
  rename_i hpeer hlimit hnil
  rw [h.synced.counts.getD] at hlimit ⊢
  let interested := { notification with hashes := onlyInterested notification.hashes }
  have hstart : Adding interested (notification :: seen) f 0
      (f, f.entries notification.peer, []) :=
    ⟨rfl, fun peer => by simp, by simp [interested], h.synced.toKeyed, hsame.received⟩
  have hloop := hstart.foldl interested.hashes.zipIdx (by
    intro entry hentry
    have hmem : entry.1 ∈ interested.hashes := List.fst_mem_of_mem_zipIdx hentry
    exact ⟨notification, List.mem_cons_self, rfl, rfl, (hselects _).subset hmem⟩)
  have hlength := (hselects notification.hashes).length_le
  apply hloop.setAnnounces h.synced
  · simp only [List.length_zipIdx, interested]
    omega
  · simp only [List.length_zipIdx, interested]
    omega

end Notification

/-! ### The timer -/

section Timer

variable {tick : Tick} {done : List EventID} {e : EventID}
  {acc : Fetcher φ × ExtTreeMap String (List EventID)}

/-- The event is being fetched from that peer, which announced it. -/
def FetchedFrom (seen : List (AnnouncesBatch φ)) (f : Fetcher φ) (peer : String) (e : EventID) :
    Prop :=
  ∃ a, f.fetching[e]? = some a ∧ a.batch.peer = peer ∧ Announced seen peer a.batch.fetchEvents e

/-- The loop over the events that did not arrive, after those of `done`; `f` is where it began. -/
structure Refetching (seen : List (AnnouncesBatch φ)) (f : Fetcher φ) (done : List EventID)
    (acc : Fetcher φ × ExtTreeMap String (List EventID)) : Prop where
  kept : Kept seen acc.1
  announced : ∀ id ∈ f.announced, id ∉ done → id ∈ acc.1.announced
  ne_nil : ∀ (peer : String) hashes, acc.2[peer]? = some hashes → hashes ≠ []
  fetched : ∀ peer, ∀ id ∈ acc.2.getD peer [], id ∈ done ∧ FetchedFrom seen acc.1 peer id

lemma Refetching.forgetHash (h : Refetching seen f done acc) (he : e ∉ done) :
    Refetching seen f (done ++ [e]) (acc.1.forgetHash e, acc.2) where
  kept := h.kept.forgetHash e
  announced id hid hdone := by
    rw [List.mem_append, List.mem_singleton, not_or] at hdone
    simp [h.announced id hid hdone.1, Ne.symm hdone.2]
  ne_nil := h.ne_nil
  fetched peer id hid := by
    obtain ⟨hdone, a, ha, hrest⟩ := h.fetched peer id hid
    have hne : e ≠ id := fun heq => he (heq ▸ hdone)
    refine ⟨List.mem_append_left _ hdone, a, ?_, hrest⟩
    simpa [ExtTreeMap.getElem?_erase, hne] using ha

lemma Refetching.skip (h : Refetching seen f done acc) : Refetching seen f (done ++ [e]) acc where
  kept := h.kept
  announced id hid hdone := h.announced id hid fun hmem => hdone (List.mem_append_left _ hmem)
  ne_nil := h.ne_nil
  fetched peer id hid := by
    obtain ⟨hdone, hfetched⟩ := h.fetched peer id hid
    exact ⟨List.mem_append_left _ hdone, hfetched⟩

lemma mem_announced_of_mem_getD {a : OneAnnounce φ} (h : a ∈ f.announced.getD e []) :
    e ∈ f.announced := by
  by_contra hnot
  rw [ExtTreeMap.getD_eq_fallback hnot] at h
  cases h

lemma Kept.refetch (h : Kept seen f) (he : e ∈ f.announced) (announce : OneAnnounce φ) (now : ℤ) :
    Kept seen { f with
      fetching := f.fetching.insert e announce
      fetchingTime := f.fetchingTime.insert e now } := by
  have hsame : ∀ id, compare e id = .eq ∨ id ∈ f.announced ↔ id ∈ f.announced := by
    intro id
    apply or_iff_right_of_imp
    intro heq
    obtain rfl : e = id := by simpa using heq
    exact he
  refine ⟨⟨⟨?_, ?_, h.synced.ne_nil⟩, h.synced.counts, h.synced.limited⟩, h.received⟩
  · intro id
    rw [ExtTreeMap.mem_insert, h.synced.mem_fetching, hsame]
  · intro id
    rw [ExtTreeMap.mem_insert, h.synced.mem_fetchingTime, hsame]

lemma Refetching.request (h : Refetching seen f done acc) (he : e ∉ done)
    {announce : OneAnnounce φ} (hannounce : announce ∈ acc.1.announced.getD e []) (now : ℤ) :
    Refetching seen f (done ++ [e])
      ({ acc.1 with
          fetching := acc.1.fetching.insert e announce
          fetchingTime := acc.1.fetchingTime.insert e now },
        acc.2.insert announce.batch.peer (acc.2.getD announce.batch.peer [] ++ [e])) := by
  -- what was requested before is still fetched from where it was
  have hold : ∀ peer, ∀ id ∈ acc.2.getD peer [], id ∈ done ++ [e] ∧
      FetchedFrom seen { acc.1 with
        fetching := acc.1.fetching.insert e announce
        fetchingTime := acc.1.fetchingTime.insert e now } peer id := by
    intro peer id hid
    obtain ⟨hdone, a, ha, hrest⟩ := h.fetched peer id hid
    have hne : e ≠ id := fun heq => he (heq ▸ hdone)
    refine ⟨List.mem_append_left _ hdone, a, ?_, hrest⟩
    simpa [ExtTreeMap.getElem?_insert, hne] using ha
  refine ⟨h.kept.refetch (mem_announced_of_mem_getD hannounce) announce now,
    fun id hid hdone => h.announced id hid fun hmem => hdone (List.mem_append_left _ hmem), ?_, ?_⟩
  · intro peer hashes hget
    rw [ExtTreeMap.getElem?_insert] at hget
    split at hget
    · cases hget
      simp
    · exact h.ne_nil peer hashes hget
  · intro peer id hid
    rw [ExtTreeMap.getD_insert] at hid
    split at hid
    · rename_i heq
      obtain rfl : announce.batch.peer = peer := by simpa using heq
      rw [List.mem_append, List.mem_singleton] at hid
      obtain hid | rfl := hid
      · exact hold _ id hid
      · exact ⟨by simp, announce, by simp, rfl, h.kept.received id announce hannounce⟩
    · exact hold peer id hid

/-- No step of the timer loop fails. -/
lemma Refetching.refetch (h : Refetching seen f done acc) (hmem : e ∈ f.announced)
    (he : e ∉ done) :
    ∃ acc', refetch tick acc e = .ok acc' ∧ Refetching seen f (done ++ [e]) acc' := by
  obtain ⟨announces, hget⟩ : ∃ announces, acc.1.announced[e]? = some announces :=
    Option.isSome_iff_exists.mp (ExtTreeMap.mem_iff_isSome_getElem?.mp (h.announced e hmem he))
  have hgetD : acc.1.announced.getD e [] = announces := by
    rw [ExtTreeMap.getD_eq_getD_getElem?, hget, Option.getD_some]
  simp only [Fetcher.refetch, hgetD]
  cases announces with
  | nil => exact absurd rfl (h.kept.synced.ne_nil e [] hget)
  | cons oldest rest =>
    dsimp only
    split
    · exact ⟨_, rfl, h.forgetHash he⟩
    split
    · refine ⟨_, rfl, h.request he ?_ tick.now⟩
      rw [hgetD]
      exact List.get_mem _ _
    · exact ⟨_, rfl, h.skip⟩

lemma FetchedFrom.forget_all {peer : String} (h : FetchedFrom seen f peer e)
    {hashes : List EventID} (he : e ∉ hashes) :
    FetchedFrom seen (hashes.foldl Fetcher.forgetHash f) peer e := by
  induction hashes generalizing f with
  | nil => exact h
  | cons hash hashes ih =>
    rw [List.mem_cons, not_or] at he
    obtain ⟨a, ha, hrest⟩ := h
    apply ih _ he.2
    refine ⟨a, ?_, hrest⟩
    simpa [ExtTreeMap.getElem?_erase, Ne.symm he.1] using ha

lemma send_ok {peer : String} {hashes : List EventID} (hne : hashes ≠ [])
    (hfetched : ∀ id ∈ hashes, FetchedFrom seen f peer id) :
    ∃ r, f.send (peer, hashes) = .ok r ∧ Fair seen r := by
  cases hashes with
  | nil => exact absurd rfl hne
  | cons first rest =>
    obtain ⟨a, ha, hpeer, hannounced⟩ := hfetched first List.mem_cons_self
    refine ⟨⟨peer, a.batch.fetchEvents, first :: rest⟩, ?_, ⟨first, rfl, hannounced⟩, ?_⟩
    · simp only [send, ha]
    · intro id hid
      obtain ⟨b, -, -, hb⟩ := hfetched id hid
      exact ⟨b.batch.fetchEvents, hb⟩

/-- Each request goes to a peer that announced what is requested. -/
lemma Refetching.send_all {arrived : List EventID} (h : Refetching seen f done acc)
    (harrived : ∀ id ∈ done, id ∉ arrived) :
    ∃ requests, acc.2.toList.mapM (arrived.foldl Fetcher.forgetHash acc.1).send = .ok requests ∧
      ∀ r ∈ requests, Fair seen r := by
  have hsend : ∀ p ∈ acc.2.toList,
      ∃ r, (arrived.foldl Fetcher.forgetHash acc.1).send p = .ok r ∧ Fair seen r := by
    rintro ⟨peer, hashes⟩ hp
    rw [ExtTreeMap.mem_toList_iff_getElem?_eq_some] at hp
    have hgetD : acc.2.getD peer [] = hashes := by
      rw [ExtTreeMap.getD_eq_getD_getElem?, hp, Option.getD_some]
    apply send_ok (h.ne_nil peer hashes hp)
    intro id hid
    rw [← hgetD] at hid
    obtain ⟨hdone, hfetched⟩ := h.fetched peer id hid
    exact hfetched.forget_all (harrived id hdone)
  obtain ⟨requests, hrequests⟩ := exists_mapM_eq_ok fun p hp => (hsend p hp).imp fun r hr => hr.1
  refine ⟨requests, hrequests, ?_⟩
  intro r hr
  have hmem : Except.ok r ∈ acc.2.toList.map (arrived.foldl Fetcher.forgetHash acc.1).send := by
    rw [mapM_eq_ok_iff.mp hrequests]
    exact List.mem_map_of_mem hr
  obtain ⟨p, hp, hpr⟩ := List.mem_map.mp hmem
  obtain ⟨r', hr', hfair⟩ := hsend p hp
  obtain rfl : r' = r := Except.ok.inj (hr'.symm.trans hpr)
  exact hfair

/-- The timer asks each event from a peer that announced it. -/
lemma Kept.onTimer (h : Kept seen f) (hselects : Selects onlyInterested)
    (hall : tick.all.Perm f.announced.keys) :
    ∃ f' requests, f.onTimer onlyInterested tick = .ok (f', requests) ∧ Kept seen f' ∧
      ∀ r ∈ requests, Fair seen r := by
  have hsub := hselects tick.all
  have hnodup : (onlyInterested tick.all).Nodup := by
    obtain ⟨l, hperm, hl⟩ := hsub
    exact hperm.nodup_iff.mp ((hall.nodup_iff.mpr ExtTreeMap.nodup_keys).sublist hl)
  obtain ⟨acc, hloop, hacc⟩ := foldlM_ok (Fetcher.refetch tick) (onlyInterested tick.all) (f, ∅)
    (Refetching seen f) ⟨h, fun id hid _ => hid, by simp, by simp⟩ (by
      intro done e rest acc hsplit hacc
      rw [hsplit] at hnodup hsub
      apply hacc.refetch
      · rw [← ExtTreeMap.mem_keys, ← hall.mem_iff]
        exact hsub.subset (by simp)
      · intro hdone
        exact (List.nodup_append.mp hnodup).2.2 e hdone e List.mem_cons_self rfl)
  -- only events that are not requested are forgotten at the end
  have harrived : ∀ id ∈ onlyInterested tick.all,
      id ∉ tick.all.filter (· ∉ onlyInterested tick.all) := by
    intro id hid hmem
    simp [hid] at hmem
  obtain ⟨requests, hrequests, hfair⟩ := hacc.send_all harrived
  refine ⟨(tick.all.filter (· ∉ onlyInterested tick.all)).foldl Fetcher.forgetHash acc.1, requests,
    ?_, hacc.kept.forget_all _, hfair⟩
  simp only [Fetcher.onTimer, hloop, bind, Except.bind, hrequests]
  rfl

end Timer

/-- The invariant holds along every run. -/
lemma Run.kept (h : Run seen f) : Kept seen f := by
  induction h with
  | new => exact Kept.new
  | notification notification h hselects ih => exact ih.onNotification hselects notification
  | inject busy op h hselects ih => exact ih.onInject busy op
  | timer h hselects hall hrun ih =>
    obtain ⟨f', requests, hrun', hkept, -⟩ := ih.onTimer hselects hall
    rw [hrun] at hrun'
    cases hrun'
    exact hkept
  | cleanup clock h hids ih => exact ih.cleanupExpiredEvents _ clock

/-- After any steps the counter of each peer is the number of its entries, at most `hashLimit` and
absent if zero, the maps have the same keys and no list is empty. The timer does not stop the node,
and what it requests on behalf of a peer the peer has announced. -/
theorem Run.synced_and_fair (h : Run seen f) :
    Synced f ∧ ∀ onlyInterested tick, Selects onlyInterested → tick.all.Perm f.announced.keys →
      ∃ f' requests, f.onTimer onlyInterested tick = .ok (f', requests) ∧
        ∀ r ∈ requests, Fair seen r := by
  refine ⟨h.kept.synced, ?_⟩
  intro onlyInterested tick hselects hall
  obtain ⟨f', requests, hrun, -, hfair⟩ := h.kept.onTimer hselects hall
  exact ⟨f', requests, hrun, hfair⟩

end Steps

/-- Two peers announce, one of them two hashes. -/
def twoPeers : Fetcher String :=
  ((new.onNotification (fun hashes => hashes) ⟨[1, 2], 5, "a", "fetch from a"⟩).1.onNotification
    (fun hashes => hashes) ⟨[2], 6, "b", "fetch from b"⟩).1

lemma exists_run_twoPeers : ∃ seen, Run seen twoPeers :=
  ⟨_, .notification _ (.notification _ .new fun _ => List.Subperm.refl _)
    fun _ => List.Subperm.refl _⟩

theorem synced_and_fair_twoPeers : twoPeers.entries "a" = 2 ∧ ∃ seen, Run seen twoPeers ∧
    Synced twoPeers ∧ ∀ onlyInterested tick, Selects onlyInterested →
      tick.all.Perm twoPeers.announced.keys →
      ∃ f' requests, twoPeers.onTimer onlyInterested tick = .ok (f', requests) ∧
        ∀ r ∈ requests, Fair seen r := by
  obtain ⟨seen, hrun⟩ := exists_run_twoPeers
  exact ⟨by decide +kernel, seen, hrun, Run.synced_and_fair hrun⟩

end Fetcher

end Lachesis
