import Lachesis.Core.Cache
import Lachesis.Core.Run
import Lachesis.Inter.Event
import Mathlib.Order.WellFoundedSet

/-!
# The event buffer

Events arrive in any order. The buffer keeps those with a missing parent, and connects an event with
its buffered descendants as soon as the parents are there. The callbacks act on a state of their
own, which the buffer passes along.
-/

namespace Lachesis

open Lachesis.Core Relation

/-- `ordering.event` -/
structure PushedEvent where
  event : Event
  peer : String
  deriving DecidableEq, Repr

/-- `ordering.Callback`, over the state `σ` the callbacks act on. An error is a value of `ε`. -/
structure Callback (σ ε : Type) where
  process : Event → σ → Option ε × σ
  drop : Event → String → ε → σ → σ
  get : σ → EventID → Option Event
  exist : σ → EventID → Bool
  /-- `Check` may be missing. -/
  check : Option (σ → Event → List Event → Option ε)
  /-- `eventcheck.ErrAlreadyConnectedEvent` -/
  errAlreadyConnectedEvent : ε

/-- `EventBuffer` over the cache `C` of capacity `size`, with the state of its callbacks. -/
structure EventBuffer {size : ℕ} (C : LruCache EventID PushedEvent size) (σ : Type) where
  incompletes : C.State
  env : σ

namespace EventBuffer

variable {σ ε : Type} {size : ℕ} {C : LruCache EventID PushedEvent size}

def new (env : σ) : EventBuffer C σ := ⟨C.empty, env⟩

def getIncompleteEventsList (buf : EventBuffer C σ) : List PushedEvent :=
  (C.keys buf.incompletes).filterMap (C.peek buf.incompletes)

section Model

variable (cb : Callback σ ε)

/-- The loop of `pushEvent` over the parents of `e`, which buffers `e` at the first missing one. -/
def findParents (e : PushedEvent) : List EventID → EventBuffer C σ →
    Option (List Event) × EventBuffer C σ
  | [], buf => (some [], buf)
  | p :: ps, buf =>
    let buf := { buf with incompletes := C.touch buf.incompletes p }
    match cb.get buf.env p with
    | none => (none, { buf with incompletes := C.add buf.incompletes e.event.hash e })
    | some parent =>
      let rest := findParents e ps buf
      (rest.1.map (parent :: ·), rest.2)

/-- `EventBuffer.pushEvent`, with a bound on the depth of the recursion. -/
def pushEvent : (fuel : ℕ) → PushedEvent → (incompleteEventsList : List PushedEvent) →
    (strict : Bool) → EventBuffer C σ → Except Fault (EventBuffer C σ)
  | 0, _, _, _, _ => .error .outOfFuel
  | fuel + 1, e, incompleteEventsList, strict, buf =>
    if cb.exist buf.env e.event.hash then
      if strict then
        .ok { buf with env := cb.drop e.event e.peer cb.errAlreadyConnectedEvent buf.env }
      else .ok buf
    else
      match findParents cb e e.event.parents buf with
      | (none, buf) => .ok buf
      | (some parents, buf) =>
        match cb.check.bind fun check => check buf.env e.event parents with
        | some err => .ok { buf with env := cb.drop e.event e.peer err buf.env }
        | none =>
          match cb.process e.event buf.env with
          | (some err, env) => .ok { buf with env := cb.drop e.event e.peer err env }
          | (none, env) =>
            let eHash := e.event.hash
            incompleteEventsList.foldlM
              (fun buf child => child.event.parents.foldlM
                (fun buf parent =>
                  if parent = eHash then pushEvent fuel child incompleteEventsList false buf
                  else .ok buf) buf)
              { incompletes := C.remove buf.incompletes eHash, env }

/-- `EventBuffer.PushEvent` -/
def push (fuel : ℕ) (e : PushedEvent) (buf : EventBuffer C σ) : Except Fault (EventBuffer C σ) :=
  pushEvent cb fuel e buf.getIncompleteEventsList true buf

/-- Calls of `PushEvent` one after the other. -/
def pushAll (fuel : ℕ) (es : List PushedEvent) (buf : EventBuffer C σ) :
    Except Fault (EventBuffer C σ) :=
  es.foldlM (fun buf e => push cb fuel e buf) buf

end Model

end EventBuffer

/-! ### What the callbacks promise -/

/-- The callbacks which also write down the calls of `Process`. -/
def Callback.logged {σ ε : Type} (cb : Callback σ ε) : Callback (σ × List Event) ε where
  process e s := ((cb.process e s.1).1, (cb.process e s.1).2, s.2 ++ [e])
  drop e peer err s := (cb.drop e peer err s.1, s.2)
  get s := cb.get s.1
  exist s := cb.exist s.1
  check := cb.check.map fun check s => check s.1
  errAlreadyConnectedEvent := cb.errAlreadyConnectedEvent

/-- A buffer whose callbacks also keep a list of events. -/
abbrev LogBuffer {size : ℕ} (C : LruCache EventID PushedEvent size) (σ : Type) :=
  EventBuffer C (σ × List Event)

/-- `p` is a parent of `e`. -/
def ParentIn (events : Finset Event) (p e : Event) : Prop :=
  p ∈ events ∧ e ∈ events ∧ p.hash ∈ e.parents

/-- An id is a hash of the event with the ids of its parents: it tells events apart, and no event is
its own ancestor. -/
structure Hashed (events : Finset Event) : Prop where
  hash_inj : ∀ e ∈ events, ∀ e' ∈ events, e.hash = e'.hash → e = e'
  acyclic : ∀ e, ¬ TransGen (ParentIn events) e e

/-- There is no cycle if each event has a greater Lamport time than its parents. -/
lemma Hashed.of_lamport {events : Finset Event}
    (hinj : ∀ e ∈ events, ∀ e' ∈ events, e.hash = e'.hash → e = e')
    (hlt : ∀ p ∈ events, ∀ e ∈ events, p.hash ∈ e.parents → p.lamport < e.lamport) :
    Hashed events := by
  refine ⟨hinj, fun e he => ?_⟩
  have hmono : TransGen (fun a b : ℕ => a < b) e.lamport e.lamport :=
    he.lift Event.lamport fun a b hab => hlt a hab.1 b hab.2.1 hab.2.2
  exact lt_irrefl _ (transGen_eq_self (r := ((· < ·) : ℕ → ℕ → Prop)) ▸ hmono)

/-- A finite graph of events without cycles, with the parents of each event. -/
structure IsDag (events : Finset Event) : Prop extends Hashed events where
  closed : ∀ e ∈ events, ∀ p ∈ e.parents, ∃ e' ∈ events, e'.hash = p

/-- The events are valid: in the states `I` of the callbacks, `Check` and `Process` succeed for an
event that comes after its parents, and a processed event is found afterwards. -/
structure Callback.Connects {σ ε : Type} (cb : Callback σ ε) (I : σ → Prop)
    (events : Finset Event) : Prop where
  get_isSome : ∀ s, I s → ∀ id, (cb.get s id).isSome = cb.exist s id
  check_ok : ∀ s, I s → ∀ e ∈ events, ∀ parents : List Event,
    e.parents.map (cb.get s) = parents.map some →
      (cb.check.bind fun check => check s e parents) = none
  process_ok : ∀ s, I s → ∀ e ∈ events, cb.exist s e.hash = false →
    (∀ p ∈ e.parents, cb.exist s p = true) → (cb.process e s).1 = none ∧
      I (cb.process e s).2 ∧ ∀ id, cb.exist (cb.process e s).2 id = (id = e.hash || cb.exist s id)
  drop_keeps : ∀ s, I s → ∀ e peer err, I (cb.drop e peer err s) ∧
    ∀ id, cb.exist (cb.drop e peer err s) id = cb.exist s id

namespace EventBuffer

variable {σ ε : Type} {size : ℕ} {C : LruCache EventID PushedEvent size} {cb : Callback σ ε}

/-! ### One event -/

variable (cb) in
/-- The parents are all found, or the event is buffered because of a missing one. -/
lemma findParents_cases (e : PushedEvent) (ps : List EventID) (buf : EventBuffer C σ) :
    (∃ parents c, findParents cb e ps buf = (some parents, ⟨c, buf.env⟩) ∧
      (∀ k, C.peek c k = C.peek buf.incompletes k) ∧ ps.map (cb.get buf.env) = parents.map some) ∨
    ∃ c : C.State,
      findParents cb e ps buf = (none, ⟨C.add c e.event.hash e, buf.env⟩) ∧
      (∀ k, C.peek c k = C.peek buf.incompletes k) ∧ ∃ p ∈ ps, cb.get buf.env p = none := by
  induction ps generalizing buf with
  | nil => exact .inl ⟨[], buf.incompletes, rfl, fun _ => rfl, rfl⟩
  | cons p ps ih =>
    cases hget : cb.get buf.env p with
    | none =>
      refine .inr ⟨C.touch buf.incompletes p, ?_, fun _ => C.peek_touch, p, by simp, hget⟩
      simp only [findParents, hget]
    | some parent =>
      rcases ih { buf with incompletes := C.touch buf.incompletes p } with
        ⟨parents, c, hrun, hpeek, hmap⟩ | ⟨c, hrun, hpeek, q, hq, hnone⟩
      · refine .inl ⟨parent :: parents, c, ?_, fun k => (hpeek k).trans C.peek_touch, ?_⟩
        · simp only [findParents, hget, hrun, Option.map_some]
        · simp only [List.map_cons, hget, hmap]
      · refine .inr ⟨c, ?_, fun k => (hpeek k).trans C.peek_touch, q, by simp [hq], hnone⟩
        simp only [findParents, hget, hrun, Option.map_none]

/-- The buffer between two calls: the callbacks are in a good state, what was processed is what
exists, each event once and after its parents, and no buffered event exists. -/
structure Ordered (cb : Callback σ ε) (I : σ → Prop) (events : Finset Event)
    (buf : LogBuffer C σ) : Prop where
  env_good : I buf.env.1
  mem_log : ∀ e, e ∈ buf.env.2 ↔ e ∈ events ∧ cb.exist buf.env.1 e.hash = true
  nodup : buf.env.2.Nodup
  parents_first : ∀ as e bs, buf.env.2 = as ++ e :: bs → ∀ p ∈ e.parents, ∃ x ∈ as, x.hash = p
  buffered : ∀ k w, C.peek buf.incompletes k = some w →
    k = w.event.hash ∧ w.event ∈ events ∧ cb.exist buf.env.1 k = false

/-- What happens to the buffer: nothing is lost, only some events are added, and an event of the
list is connected if its last parents are. -/
structure Connected (cb : Callback σ ε) (list : List PushedEvent) (ids : List EventID)
    (buf buf' : LogBuffer C σ) : Prop where
  grows : ∀ id, cb.exist buf.env.1 id = true → cb.exist buf'.env.1 id = true
  kept : ∀ k ∈ C.keys buf.incompletes, k ∈ C.keys buf'.incompletes ∨ cb.exist buf'.env.1 k = true
  origin : ∀ k ∈ C.keys buf'.incompletes, k ∈ C.keys buf.incompletes ∨ k ∈ ids
  complete : ∀ c ∈ list,
    (∃ p ∈ c.event.parents, cb.exist buf.env.1 p = false ∧ cb.exist buf'.env.1 p = true) →
      (∀ p ∈ c.event.parents, cb.exist buf'.env.1 p = true) →
        cb.exist buf'.env.1 c.event.hash = true

section

variable {list : List PushedEvent} {ids ids' : List EventID}
variable {buf buf' buf'' : LogBuffer C σ}

lemma Connected.of_exist (hexist : ∀ id, cb.exist buf'.env.1 id = cb.exist buf.env.1 id)
    (hkept : ∀ k ∈ C.keys buf.incompletes, k ∈ C.keys buf'.incompletes)
    (horigin : ∀ k ∈ C.keys buf'.incompletes, k ∈ C.keys buf.incompletes ∨ k ∈ ids) :
    Connected cb list ids buf buf' where
  grows id h := by rwa [hexist]
  kept k hk := .inl (hkept k hk)
  origin := horigin
  complete c _ hnew _ := by
    obtain ⟨p, -, hno, hyes⟩ := hnew
    rw [hexist, hno] at hyes
    cases hyes

lemma Connected.refl : Connected cb list ids buf buf :=
  .of_exist (fun _ => rfl) (fun _ hk => hk) fun _ hk => .inl hk

lemma Connected.mono (h : Connected cb list ids buf buf') (hids : ids ⊆ ids') :
    Connected cb list ids' buf buf' :=
  { h with origin := fun k hk => (h.origin k hk).imp_right fun hk => hids hk }

/-- Calls are composed. -/
lemma Connected.trans (h : Connected cb list ids buf buf') (h' : Connected cb list ids buf' buf'') :
    Connected cb list ids buf buf'' where
  grows id hid := h'.grows id (h.grows id hid)
  kept k hk := by
    rcases h.kept k hk with hk | hk
    · exact h'.kept k hk
    · exact .inr (h'.grows k hk)
  origin k hk := by
    rcases h'.origin k hk with hk | hk
    · exact h.origin k hk
    · exact .inr hk
  complete c hc hnew hall := by
    by_cases hlate : ∃ p ∈ c.event.parents, cb.exist buf'.env.1 p = false
    · -- its last parents came in the second part
      obtain ⟨p, hp, hno⟩ := hlate
      exact h'.complete c hc ⟨p, hp, hno, hall p hp⟩ hall
    · have hall' : ∀ p ∈ c.event.parents, cb.exist buf'.env.1 p = true := by simpa using hlate
      obtain ⟨p, hp, hno, -⟩ := hnew
      exact h'.grows _ (h.complete c hc ⟨p, hp, hno, hall' p hp⟩ hall')

end

section

variable {I : σ → Prop} {events : Finset Event}
variable {buf : LogBuffer C σ} {c : C.State}

variable {w : PushedEvent}

lemma Ordered.add (hbuf : Ordered cb I events buf) (hsize : events.card ≤ size)
    (hc : ∀ k, C.peek c k = C.peek buf.incompletes k) (hw : w.event ∈ events)
    (hnew : cb.exist buf.env.1 w.event.hash = false) :
    Ordered cb I events ⟨C.add c w.event.hash w, buf.env⟩ ∧
      ∀ k, k ∈ C.keys (C.add c w.event.hash w) ↔ k = w.event.hash ∨ k ∈ C.keys buf.incompletes := by
  have hmem : ∀ k ∈ C.keys c, k ∈ events.image Event.hash := by
    intro k hk
    rw [LruCache.mem_keys_congr hc, C.mem_keys_iff] at hk
    obtain ⟨x, hx⟩ := hk
    obtain ⟨rfl, hevent, -⟩ := hbuf.buffered k x hx
    exact Finset.mem_image_of_mem _ hevent
  have hpeek : ∀ k, C.peek (C.add c w.event.hash w) k =
      if k = w.event.hash then some w else C.peek buf.incompletes k := fun k => by
    rw [C.peek_add hmem (Finset.mem_image_of_mem _ hw) (Finset.card_image_le.trans hsize), hc]
  refine ⟨{ hbuf with buffered := fun k x hx => ?_ }, fun k => ?_⟩
  · rw [hpeek] at hx
    split_ifs at hx with hk
    · cases hx
      exact ⟨hk, hw, hk ▸ hnew⟩
    · exact hbuf.buffered k x hx
  · rw [C.mem_keys_iff, hpeek, C.mem_keys_iff]
    split_ifs with hk
    · simp [hk]
    · simp [hk]

/-- An event is processed when its parents are. -/
lemma Ordered.process (hcb : cb.Connects I events) (hdag : IsDag events)
    (hbuf : Ordered cb I events buf) (hc : ∀ k, C.peek c k = C.peek buf.incompletes k) {e : Event}
    (he : e ∈ events) (hnew : cb.exist buf.env.1 e.hash = false)
    (hparents : ∀ p ∈ e.parents, cb.exist buf.env.1 p = true) :
    Ordered cb I events ⟨C.remove c e.hash, (cb.logged.process e buf.env).2⟩ ∧
      (∀ id, cb.exist (cb.logged.process e buf.env).2.1 id =
        (id = e.hash || cb.exist buf.env.1 id)) ∧
      ∀ k, k ∈ C.keys (C.remove c e.hash) ↔ k ≠ e.hash ∧ k ∈ C.keys buf.incompletes := by
  obtain ⟨-, hgood, hexist⟩ := hcb.process_ok _ hbuf.env_good e he hnew hparents
  have hpeek : ∀ k, C.peek (C.remove c e.hash) k =
      if k = e.hash then none else C.peek buf.incompletes k := fun k => by rw [C.peek_remove, hc]
  refine ⟨⟨hgood, fun x => ?_, ?_, ?_, fun k x hx => ?_⟩, hexist, fun k => ?_⟩
  · simp only [Callback.logged, List.mem_append, List.mem_singleton, hbuf.mem_log, hexist,
      Bool.or_eq_true, decide_eq_true_eq]
    constructor
    · rintro (⟨hx, hyes⟩ | rfl)
      · exact ⟨hx, .inr hyes⟩
      · exact ⟨he, .inl rfl⟩
    · rintro ⟨hx, heq | hyes⟩
      · exact .inr (hdag.hash_inj x hx e he heq)
      · exact .inl ⟨hx, hyes⟩
  · refine List.nodup_append.mpr ⟨hbuf.nodup, List.nodup_singleton e, ?_⟩
    rintro x hx y hy rfl
    rw [List.mem_singleton.mp hy, hbuf.mem_log, hnew] at hx
    cases hx.2
  · intro as x bs hsplit p hp
    rcases List.eq_nil_or_concat bs with rfl | ⟨bs', y, rfl⟩
    · -- the new event: its parents exist, so they were processed
      obtain ⟨rfl, hx⟩ := List.append_inj' (show buf.env.2 ++ [e] = as ++ [x] from hsplit) rfl
      cases hx
      obtain ⟨q, hq, rfl⟩ := hdag.closed e he p hp
      exact ⟨q, (hbuf.mem_log q).mpr ⟨hq, hparents _ hp⟩, rfl⟩
    · have hsplit' : buf.env.2 ++ [e] = (as ++ x :: bs') ++ [y] := by
        simpa [Callback.logged] using hsplit
      exact hbuf.parents_first as x bs' (List.append_inj' hsplit' rfl).1 p hp
  · rw [hpeek] at hx
    split_ifs at hx with hk
    obtain ⟨hkey, hevent, hno⟩ := hbuf.buffered k x hx
    exact ⟨hkey, hevent, by simp [hexist, hk, hno, Callback.logged]⟩
  · rw [C.mem_keys_iff, hpeek, C.mem_keys_iff]
    split_ifs with hk
    · simp [hk]
    · simp [hk]

/-! ### The recursion -/

/-- The events still to be processed. -/
def unprocessed (cb : Callback σ ε) (events : Finset Event)
    (buf : LogBuffer C σ) : Finset Event :=
  events.filter fun e => cb.exist buf.env.1 e.hash = false

lemma unprocessed_subset {buf buf' : LogBuffer C σ}
    (h : ∀ id, cb.exist buf.env.1 id = true → cb.exist buf'.env.1 id = true) :
    unprocessed cb events buf' ⊆ unprocessed cb events buf := by
  intro e he
  rw [unprocessed, Finset.mem_filter] at he ⊢
  refine ⟨he.1, ?_⟩
  by_contra hyes
  rw [h _ (by simpa using hyes)] at he
  cases he.2

/-- What `pushEvent` achieves: the event is connected, or it is buffered and a parent is missing. -/
def Settles (cb : Callback σ ε) (I : σ → Prop) (events : Finset Event) (w : PushedEvent)
    (list : List PushedEvent) (buf buf' : LogBuffer C σ) : Prop :=
  Ordered cb I events buf' ∧
    Connected cb list (w.event.hash :: list.map (·.event.hash)) buf buf' ∧
    (cb.exist buf'.env.1 w.event.hash = true ∨ w.event.hash ∈ C.keys buf'.incompletes ∧
      ∃ p ∈ w.event.parents, cb.exist buf'.env.1 p = false)

/-- A child of `eHash` all of whose parents exist in `buf` exists in `b`. -/
def ChildConnected (cb : Callback σ ε) (eHash : EventID) (buf b : LogBuffer C σ)
    (c : PushedEvent) : Prop :=
  eHash ∈ c.event.parents → (∀ p ∈ c.event.parents, cb.exist buf.env.1 p = true) →
    cb.exist b.env.1 c.event.hash = true

variable {list : List PushedEvent}

/-- The loop over the buffered children ends. -/
lemma children_ok (eHash : EventID) {fuel : ℕ}
    (ih : ∀ c ∈ list, ∀ b : LogBuffer C σ, Ordered cb I events b →
      (unprocessed cb events b).card < fuel →
        ∃ b', pushEvent cb.logged fuel c list false b = .ok b' ∧ Settles cb I events c list b b')
    (hbuf : Ordered cb I events buf) (hfuel : (unprocessed cb events buf).card < fuel) :
    ∃ b, list.foldlM
        (fun buf child => child.event.parents.foldlM
          (fun buf parent => if parent = eHash then pushEvent cb.logged fuel child list false buf
            else .ok buf) buf) buf = .ok b ∧
      Ordered cb I events b ∧ Connected cb list (list.map (·.event.hash)) buf b ∧
      ∀ c ∈ list, ChildConnected cb eHash buf b c := by
  refine foldlM_ok _ list buf (fun done b => Ordered cb I events b ∧
    Connected cb list (list.map (·.event.hash)) buf b ∧
    ∀ c ∈ done, ChildConnected cb eHash buf b c) ⟨hbuf, .refl, by simp⟩ ?_
  rintro done c rest b hl ⟨hb, hconn, hdone⟩
  have hc : c ∈ list := by simp [hl]
  have hinner := foldlM_ok (fun buf parent => if parent = eHash then
    pushEvent cb.logged fuel c list false buf else .ok buf) c.event.parents b
    (fun seen b => Ordered cb I events b ∧
      Connected cb list (list.map (·.event.hash)) buf b ∧
      (∀ c ∈ done, ChildConnected cb eHash buf b c) ∧
      (eHash ∈ seen → ChildConnected cb eHash buf b c)) ⟨hb, hconn, hdone, by simp⟩ ?_
  · obtain ⟨b', hrun, hb', hconn', hdone', hlast⟩ := hinner
    refine ⟨b', hrun, hb', hconn', fun x hx => ?_⟩
    rcases List.mem_append.mp hx with hx | hx
    · exact hdone' x hx
    · rw [List.mem_singleton.mp hx]
      exact fun hm => hlast hm hm
  · rintro seen parent rest b - ⟨hb, hconn, hdone, hseen⟩
    split_ifs with hp
    · have hlt := (Finset.card_le_card (unprocessed_subset hconn.grows)).trans_lt hfuel
      obtain ⟨b', hrun, hb', hconn', hsettled⟩ := ih c hc b hb hlt
      have hsub : c.event.hash :: list.map (·.event.hash) ⊆ list.map (·.event.hash) :=
        List.cons_subset.mpr ⟨List.mem_map_of_mem hc, List.Subset.refl _⟩
      refine ⟨b', hrun, hb', hconn.trans (hconn'.mono hsub),
        fun c hc hm hall => hconn'.grows _ (hdone c hc hm hall), fun _ _ hall => ?_⟩
      -- all parents exist by now, so the child is not buffered
      rcases hsettled with hyes | ⟨-, p, hp, hno⟩
      · exact hyes
      · rw [hconn'.grows p (hconn.grows p (hall p hp))] at hno
        cases hno
    · refine ⟨b, rfl, hb, hconn, hdone, fun hm => hseen ?_⟩
      rcases List.mem_append.mp hm with hm | hm
      · exact hm
      · exact absurd (List.mem_singleton.mp hm).symm hp

lemma Connected.of_children {buf₁ b : LogBuffer C σ} {eHash : EventID}
    {ids : List EventID}
    (hexist : ∀ id, cb.exist buf₁.env.1 id = (id = eHash || cb.exist buf.env.1 id))
    (hkeys : ∀ k, k ∈ C.keys buf₁.incompletes ↔ k ≠ eHash ∧ k ∈ C.keys buf.incompletes)
    (hconn : Connected cb list ids buf₁ b)
    (hchildren : ∀ c ∈ list, ChildConnected cb eHash buf₁ b c) :
    Connected cb list ids buf b where
  grows id hid := hconn.grows id (by simp [hexist, hid])
  kept k hk := by
    by_cases heq : k = eHash
    · exact .inr (hconn.grows k (by simp [hexist, heq]))
    · exact hconn.kept k ((hkeys k).mpr ⟨heq, hk⟩)
  origin k hk := (hconn.origin k hk).imp_left fun hk => ((hkeys k).mp hk).2
  complete c hc hnew hall := by
    by_cases hlate : ∃ p ∈ c.event.parents, cb.exist buf₁.env.1 p = false
    · obtain ⟨p, hp, hno⟩ := hlate
      exact hconn.complete c hc ⟨p, hp, hno, hall p hp⟩ hall
    · -- the new parent is the event itself, and the child was visited
      have hall₁ : ∀ p ∈ c.event.parents, cb.exist buf₁.env.1 p = true := by simpa using hlate
      obtain ⟨p, hp, hno, -⟩ := hnew
      have hyes := hall₁ p hp
      rw [hexist, hno, Bool.or_false, decide_eq_true_eq] at hyes
      exact hchildren c hc (hyes ▸ hp) hall₁

/-- With enough fuel for the events still to be processed, `pushEvent` returns. -/
theorem pushEvent_settles (hcb : cb.Connects I events) (hdag : IsDag events)
    (hsize : events.card ≤ size) (hlist : ∀ c ∈ list, c.event ∈ events) {fuel : ℕ}
    (hw : w.event ∈ events) (strict : Bool) (hbuf : Ordered cb I events buf)
    (hfuel : (unprocessed cb events buf).card < fuel) :
    ∃ buf', pushEvent cb.logged fuel w list strict buf = .ok buf' ∧
      Settles cb I events w list buf buf' := by
  induction fuel generalizing w strict buf with
  | zero => cases hfuel
  | succ fuel ih =>
    rw [pushEvent]
    cases hnew : cb.exist buf.env.1 w.event.hash with
    | true =>
      rw [if_pos (show cb.logged.exist buf.env w.event.hash = true from hnew)]
      cases strict with
      | false => exact ⟨buf, rfl, hbuf, .refl, .inl hnew⟩
      | true =>
        obtain ⟨hgood, hexist⟩ := hcb.drop_keeps _ hbuf.env_good w.event w.peer
          cb.errAlreadyConnectedEvent
        refine ⟨_, rfl, ⟨hgood, ?_, hbuf.nodup, hbuf.parents_first, ?_⟩,
          .of_exist hexist (fun _ hk => hk) (fun _ hk => .inl hk), .inl ?_⟩
        · exact fun e => (hbuf.mem_log e).trans (by simp only [Callback.logged, hexist])
        · exact fun k x hx => by simpa only [Callback.logged, hexist] using hbuf.buffered k x hx
        · exact (hexist _).trans hnew
    | false =>
      rw [if_neg (show ¬ cb.logged.exist buf.env w.event.hash = true by
        simp [Callback.logged, hnew])]
      rcases findParents_cases cb.logged w w.event.parents buf with
        ⟨parents, c, hrun, hc, hmap⟩ | ⟨c, hrun, hc, p, hp, hnone⟩
      · have hparents : ∀ p ∈ w.event.parents, cb.exist buf.env.1 p = true := by
          intro p hp
          have hmem : cb.get buf.env.1 p ∈ parents.map some := hmap ▸ List.mem_map_of_mem hp
          obtain ⟨x, -, hx⟩ := List.mem_map.mp hmem
          rw [← hcb.get_isSome _ hbuf.env_good, ← hx, Option.isSome_some]
        have hcheck := hcb.check_ok _ hbuf.env_good _ hw parents hmap
        have hproc := (hcb.process_ok _ hbuf.env_good _ hw hnew hparents).1
        obtain ⟨hbuf₁, hexist₁, hkeys₁⟩ := hbuf.process hcb hdag hc hw hnew hparents
        have hcheck' :
            (cb.logged.check.bind fun check => check buf.env w.event parents) = none := by
          simpa [Callback.logged, Option.bind_map, Function.comp_def] using hcheck
        have hproc' : cb.logged.process w.event buf.env =
            (none, (cb.logged.process w.event buf.env).2) := Prod.ext hproc rfl
        have hlt : unprocessed cb events
            ⟨C.remove c w.event.hash, (cb.logged.process w.event buf.env).2⟩ ⊂
              unprocessed cb events buf := by
          refine Finset.ssubset_iff_subset_ne.mpr
            ⟨unprocessed_subset fun id hid => by simp [hexist₁, hid], fun heq => ?_⟩
          have hmem : w.event ∈ unprocessed cb events buf := Finset.mem_filter.mpr ⟨hw, hnew⟩
          rw [← heq, unprocessed, Finset.mem_filter] at hmem
          simp [hexist₁] at hmem
        have hlt' := (Finset.card_lt_card hlt).trans_le (Nat.lt_succ_iff.mp hfuel)
        obtain ⟨b, hb, hordered, hconn, hchildren⟩ := children_ok w.event.hash
          (fun c hc b hb hf => ih (hlist c hc) false hb hf) hbuf₁ hlt'
        simp only [hrun, hcheck']
        rw [hproc']
        refine ⟨b, hb, hordered, ?_, .inl (hconn.grows _ (by simp [hexist₁]))⟩
        exact (Connected.of_children hexist₁ hkeys₁ hconn hchildren).mono
          (List.subset_cons_self _ _)
      · obtain ⟨hadd, hkeys⟩ := hbuf.add hsize hc hw hnew
        have hno : cb.exist buf.env.1 p = false := by
          rw [← hcb.get_isSome _ hbuf.env_good, show cb.get buf.env.1 p = none from hnone]
          rfl
        rw [hrun]
        refine ⟨_, rfl, hadd, .of_exist (fun _ => rfl) (fun k hk => (hkeys k).mpr (.inr hk)) ?_,
          .inr ⟨(hkeys _).mpr (.inl rfl), p, hp, hno⟩⟩
        intro k hk
        rcases (hkeys k).mp hk with rfl | hk
        · exact .inr List.mem_cons_self
        · exact .inl hk

/-! ### Calls of `PushEvent` -/

lemma mem_getIncompleteEventsList {σ : Type} {buf : EventBuffer C σ} :
    w ∈ buf.getIncompleteEventsList ↔ ∃ k, C.peek buf.incompletes k = some w := by
  rw [getIncompleteEventsList, List.mem_filterMap]
  constructor
  · rintro ⟨k, -, hk⟩
    exact ⟨k, hk⟩
  · rintro ⟨k, hk⟩
    exact ⟨k, C.mem_keys_iff.mpr ⟨w, hk⟩, hk⟩

/-- The buffer after some events have been pushed: each exists or waits for a parent. -/
structure Waits (cb : Callback σ ε) (I : σ → Prop) (events : Finset Event)
    (pushed : List PushedEvent) (buf : LogBuffer C σ) : Prop
    extends Ordered cb I events buf where
  missing : ∀ k x, C.peek buf.incompletes k = some x →
    ∃ p ∈ x.event.parents, cb.exist buf.env.1 p = false
  arrived : ∀ w ∈ pushed,
    cb.exist buf.env.1 w.event.hash = true ∨ w.event.hash ∈ C.keys buf.incompletes

/-- No pushed event is lost: it is processed or it waits. -/
lemma Waits.push (hcb : cb.Connects I events) (hdag : IsDag events) (hsize : events.card ≤ size)
    {fuel : ℕ} (hfuel : events.card < fuel) {pushed : List PushedEvent}
    (hbuf : Waits cb I events pushed buf) (hw : w.event ∈ events) :
    ∃ buf', push cb.logged fuel w buf = .ok buf' ∧ Waits cb I events (pushed ++ [w]) buf' := by
  have hlist : ∀ c ∈ buf.getIncompleteEventsList, c.event ∈ events := by
    intro c hc
    obtain ⟨k, hk⟩ := mem_getIncompleteEventsList.mp hc
    exact (hbuf.buffered k c hk).2.1
  obtain ⟨buf', hrun, hbuf', hconn, hsettled⟩ := pushEvent_settles hcb hdag hsize hlist hw true
    hbuf.toOrdered ((Finset.card_le_card (Finset.filter_subset _ _)).trans_lt hfuel)
  refine ⟨buf', hrun, hbuf', fun k x hx => ?_, fun x hx => ?_⟩
  · obtain ⟨rfl, hxe, hno⟩ := hbuf'.buffered k x hx
    have hkey : x.event.hash = w.event.hash ∨ x.event.hash ∈ C.keys buf.incompletes := by
      rcases hconn.origin _ (C.mem_keys_iff.mpr ⟨x, hx⟩) with hold | hid
      · exact .inr hold
      · rcases List.mem_cons.mp hid with heq | hid
        · exact .inl heq
        · obtain ⟨c, hc, heq⟩ := List.mem_map.mp hid
          obtain ⟨k, hk⟩ := mem_getIncompleteEventsList.mp hc
          rw [← heq, ← (hbuf.buffered k c hk).1]
          exact .inr (C.mem_keys_iff.mpr ⟨c, hk⟩)
    rcases hkey with heq | hold
    · rw [hdag.hash_inj _ hxe _ hw heq] at hno ⊢
      rcases hsettled with hyes | ⟨-, hmissing⟩
      · rw [hyes] at hno
        cases hno
      · exact hmissing
    · -- it was in the list, so it would have been connected with its last parent
      obtain ⟨y, hy⟩ := C.mem_keys_iff.mp hold
      obtain ⟨heq, hye, -⟩ := hbuf.buffered _ y hy
      rw [hdag.hash_inj _ hxe _ hye heq] at hno ⊢
      obtain ⟨p, hp, hpno⟩ := hbuf.missing _ y hy
      by_contra hall
      have hall' : ∀ p ∈ y.event.parents, cb.exist buf'.env.1 p = true := by simpa using hall
      rw [hconn.complete y (mem_getIncompleteEventsList.mpr ⟨_, hy⟩) ⟨p, hp, hpno, hall' p hp⟩
        hall'] at hno
      cases hno
  · rcases List.mem_append.mp hx with hx | hx
    · rcases hbuf.arrived x hx with hyes | hkey
      · exact .inl (hconn.grows _ hyes)
      · exact (hconn.kept _ hkey).symm
    · rw [List.mem_singleton.mp hx]
      exact hsettled.imp_right And.left

/-- When every event has been pushed none waits: a lowest one would have all its parents. -/
lemma Waits.all (hdag : IsDag events) {pushed : List PushedEvent}
    (hbuf : Waits cb I events pushed buf) (hall : ∀ e ∈ events, ∃ w ∈ pushed, w.event = e) :
    (∀ e ∈ events, cb.exist buf.env.1 e.hash = true) ∧ C.keys buf.incompletes = [] := by
  have : IsStrictOrder Event (TransGen (ParentIn events)) :=
    { irrefl := hdag.acyclic, trans := fun _ _ _ => TransGen.trans }
  have hexist : ∀ e ∈ events, cb.exist buf.env.1 e.hash = true := by
    intro e he
    have hwf := events.wellFoundedOn (r := TransGen (ParentIn events))
    refine hwf.induction (P := fun e => cb.exist buf.env.1 e.hash = true) he fun e he ih => ?_
    obtain ⟨w, hw, rfl⟩ := hall e he
    rcases hbuf.arrived w hw with hyes | hkey
    · exact hyes
    · obtain ⟨x, hx⟩ := C.mem_keys_iff.mp hkey
      obtain ⟨heq, hxe, -⟩ := hbuf.buffered _ x hx
      obtain ⟨p, hp, hno⟩ := hbuf.missing _ x hx
      rw [← hdag.hash_inj _ he _ hxe heq] at hp
      obtain ⟨q, hq, rfl⟩ := hdag.closed _ he p hp
      rw [ih q hq (.single ⟨hq, he, hp⟩)] at hno
      cases hno
  refine ⟨hexist, List.eq_nil_iff_forall_not_mem.mpr fun k hk => ?_⟩
  obtain ⟨x, hx⟩ := C.mem_keys_iff.mp hk
  obtain ⟨rfl, hxe, hno⟩ := hbuf.buffered k x hx
  rw [hexist _ hxe] at hno
  cases hno

/-- The events of a graph, pushed in any order with any repetitions: `Process` is called once for
each event and after its parents, and no event stays in the buffer. -/
theorem pushAll_connects (hcb : cb.Connects I events) (hdag : IsDag events)
    (hsize : events.card ≤ size) {env : σ} (henv : I env)
    (hnew : ∀ e ∈ events, cb.exist env e.hash = false) {pushes : List PushedEvent}
    (hpushes : ∀ w ∈ pushes, w.event ∈ events) (hall : ∀ e ∈ events, ∃ w ∈ pushes, w.event = e)
    {fuel : ℕ} (hfuel : events.card < fuel) :
    ∃ buf : LogBuffer C σ,
      pushAll cb.logged fuel pushes (new (env, [])) = .ok buf ∧
      buf.env.2.Nodup ∧ (∀ e, e ∈ buf.env.2 ↔ e ∈ events) ∧
      (∀ as e bs, buf.env.2 = as ++ e :: bs → ∀ p ∈ e.parents, ∃ x ∈ as, x.hash = p) ∧
      (∀ e ∈ events, cb.exist buf.env.1 e.hash = true) ∧ C.keys buf.incompletes = [] := by
  have hstart : Waits cb I events [] (new (env, []) : LogBuffer C σ) := by
    refine ⟨⟨henv, fun e => ?_, List.nodup_nil, by simp [new], by simp [new, C.peek_empty]⟩,
      by simp [new, C.peek_empty], by simp⟩
    constructor
    · intro he
      cases he
    · rintro ⟨he, hyes⟩
      cases hyes.symm.trans (hnew e he)
  obtain ⟨buf, hrun, hbuf⟩ := foldlM_ok (fun buf e => push cb.logged fuel e buf) pushes
    (new (env, [])) (fun done buf => Waits cb I events done buf) hstart
    fun done w rest buf hl hbuf => hbuf.push hcb hdag hsize hfuel (hpushes w (by simp [hl]))
  obtain ⟨hexist, hempty⟩ := hbuf.all hdag hall
  refine ⟨buf, hrun, hbuf.nodup, fun e => ?_, hbuf.parents_first, hexist, hempty⟩
  rw [hbuf.mem_log]
  exact ⟨And.left, fun he => ⟨he, hexist e he⟩⟩

end

end EventBuffer

/-! ### Callbacks that keep the events in memory -/

/-- `Process` refuses an event that comes twice or before a parent. -/
def Callback.memory : Callback (List Event) String where
  process e s :=
    if s.any (·.hash = e.hash) then (some "already processed", s)
    else if e.parents.all fun p => s.any (·.hash = p) then (none, s ++ [e])
    else (some "got before parent", s)
  drop _ _ _ s := s
  get s id := s.find? (·.hash = id)
  exist s id := s.any (·.hash = id)
  check := none
  errAlreadyConnectedEvent := "event is connected already"

lemma Callback.memory_connects (events : Finset Event) :
    Callback.memory.Connects (fun _ => True) events where
  get_isSome s _ id := by
    rw [Bool.eq_iff_iff]
    exact List.find?_isSome.trans List.any_eq_true.symm
  check_ok _ _ _ _ _ _ := rfl
  process_ok s _ e _ hnew hparents := by
    simp only [Callback.memory] at hnew hparents ⊢
    rw [if_neg (by rw [hnew]; exact Bool.false_ne_true), if_pos (List.all_eq_true.mpr hparents)]
    refine ⟨rfl, trivial, fun id => ?_⟩
    rw [List.any_append, Bool.or_comm]
    simp [eq_comm]
  drop_keeps _ _ _ _ _ := ⟨trivial, fun _ => rfl⟩

namespace EventBuffer

/-- An event and its child. -/
def parentEvent : Event := ⟨1, 1, 1, true, 1, 0, [], 1, 0, 0, 1⟩

@[inherit_doc parentEvent]
def childEvent : Event := ⟨1, 2, 1, false, 1, 0, [parentEvent.hash], 2, 0, 0, 2⟩

/-- The child comes first, and again at the end. -/
def pushedEvents : List PushedEvent :=
  [⟨childEvent, "a"⟩, ⟨parentEvent, "b"⟩, ⟨childEvent, "b"⟩]

lemma isDag_parent_child : IsDag {parentEvent, childEvent} where
  toHashed := .of_lamport (by decide +kernel) (by decide +kernel)
  closed := by decide +kernel

theorem pushAll_connects_child_first :
    ∃ buf : EventBuffer (Lru.cache EventID PushedEvent 2).toLruCache (List Event × List Event),
      pushAll Callback.memory.logged 3 pushedEvents (new ([], [])) = .ok buf ∧
      buf.env.2.Nodup ∧
      (∀ e, e ∈ buf.env.2 ↔ e ∈ ({parentEvent, childEvent} : Finset Event)) ∧
      (∀ as e bs, buf.env.2 = as ++ e :: bs → ∀ p ∈ e.parents, ∃ x ∈ as, x.hash = p) ∧
      (∀ e ∈ ({parentEvent, childEvent} : Finset Event),
        Callback.memory.exist buf.env.1 e.hash = true) ∧
      (Lru.cache EventID PushedEvent 2).keys buf.incompletes = [] :=
  pushAll_connects (Callback.memory_connects _) isDag_parent_child (by decide +kernel) trivial
    (by decide +kernel) (by decide +kernel) (by decide +kernel) (by decide +kernel)

end EventBuffer

end Lachesis
