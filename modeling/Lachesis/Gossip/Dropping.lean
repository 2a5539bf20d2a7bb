import Lachesis.Gossip.Ordering

/-!
# Dropped events

`Check` and `Process` may fail. `pushEvent` then drops the event and returns, and it takes an event
out of the buffer only after it was processed. So an event that waits in the buffer and is refused
when its last parent comes stays there, with all its parents, and is dropped again with each later
push of one of them. The buffer forgets what it drops if an event that may be refused is pushed only
when its parents are there.
-/

namespace Lachesis

open Lachesis.Core Relation

section Callbacks

variable {σ ε : Type} (cb : Callback σ ε)

/-- The callbacks which also write down the events that `Drop` gets because `Check` or `Process`
failed. The other error of `Drop` is `none`. -/
def Callback.refusals : Callback (σ × List Event) (Option ε) where
  process e s := ((cb.process e s.1).1.map some, (cb.process e s.1).2, s.2)
  drop e peer err s :=
    match err with
    | some err => (cb.drop e peer err s.1, s.2 ++ [e])
    | none => (cb.drop e peer cb.errAlreadyConnectedEvent s.1, s.2)
  get s := cb.get s.1
  exist s := cb.exist s.1
  check := cb.check.map fun check s e parents => (check s.1 e parents).map some
  errAlreadyConnectedEvent := none

/-- Whatever `Get` and `Exists` find afterwards is `new` or was found before. -/
def Callback.Keeps (new : EventID → Prop) (s s' : σ) : Prop :=
  ∀ id, (cb.get s' id ≠ none → new id ∨ cb.get s id ≠ none) ∧
    (cb.exist s' id = true → new id ∨ cb.exist s id = true)

/-- In the states `I` of the callbacks, `Get` and `Exists` come to find nothing but the events that
`Process` accepts. They may lose events, as the store does with those of a sealed epoch. -/
structure Callback.Adds (I : σ → Prop) : Prop where
  process_keeps : ∀ s, I s → ∀ e, I (cb.process e s).2 ∧
    cb.Keeps (fun id => (cb.process e s).1 = none ∧ id = e.hash) s (cb.process e s).2
  drop_keeps : ∀ s, I s → ∀ e peer err, I (cb.drop e peer err s) ∧
    cb.Keeps (fun _ => False) s (cb.drop e peer err s)

/-- Neither `Check` nor `Process` refuses the event once its parents are found. -/
def Callback.Accepts (I : σ → Prop) (e : Event) : Prop :=
  ∀ s, I s → cb.exist s e.hash = false → ∀ parents : List Event,
    e.parents.map (cb.get s) = parents.map some →
      (cb.check.bind fun check => check s e parents) = none ∧ (cb.process e s).1 = none

/-- The event has to wait for a parent. -/
def Callback.Incomplete (s : σ) (e : Event) : Prop :=
  cb.exist s e.hash = false ∧ ∃ p ∈ e.parents, cb.get s p = none

variable {cb} {s s' s'' : σ}

lemma Callback.Keeps.refl {new : EventID → Prop} : cb.Keeps new s s := fun _ => ⟨.inr, .inr⟩

/-- A failed `Process` and the `Drop` after it add nothing. -/
lemma Callback.Keeps.trans_not {new : EventID → Prop} (h : cb.Keeps new s s') (hnew : ∀ id, ¬ new id)
    (h' : cb.Keeps (fun _ => False) s' s'') : cb.Keeps (fun _ => False) s s'' := by
  intro k
  constructor
  · intro hget
    exact .inr (((h k).1 (((h' k).1 hget).resolve_left id)).resolve_left (hnew k))
  · intro hexist
    exact .inr (((h k).2 (((h' k).2 hexist).resolve_left id)).resolve_left (hnew k))

lemma Callback.refusals_check (s : σ × List Event) (e : Event) (parents : List Event) :
    (cb.refusals.check.bind fun check => check s e parents) =
      (cb.check.bind fun check => check s.1 e parents).map some := by
  cases h : cb.check with
  | none => simp [Callback.refusals, h]
  | some check => simp [Callback.refusals, h]

end Callbacks

/-! ### Descendants -/

section Descendants

variable {events : Finset Event} {e c : Event}

open scoped Classical in
/-- The events that come after `e`. -/
noncomputable def descendants (events : Finset Event) (e : Event) : Finset Event :=
  events.filter fun d => TransGen (ParentIn events) e d

lemma mem_descendants : c ∈ descendants events e ↔ c ∈ events ∧ TransGen (ParentIn events) e c := by
  classical exact Finset.mem_filter

/-- The recursion of `pushEvent` goes down: a child has fewer descendants. -/
lemma Hashed.card_descendants_lt (h : Hashed events) (hc : ParentIn events e c) :
    (descendants events c).card < (descendants events e).card := by
  apply Finset.card_lt_card
  refine (Finset.ssubset_iff_of_subset fun d hd => ?_).mpr ⟨c, ?_, ?_⟩
  · rw [mem_descendants] at hd ⊢
    exact ⟨hd.1, .head hc hd.2⟩
  · exact mem_descendants.mpr ⟨hc.2.1, .single hc⟩
  · intro hself
    exact h.acyclic c (mem_descendants.mp hself).2

lemma card_descendants_le : (descendants events e).card ≤ events.card :=
  Finset.card_le_card fun _ hd => (mem_descendants.mp hd).1

end Descendants

namespace EventBuffer

variable {σ ε : Type} {size : ℕ} {C : LruCache EventID PushedEvent size} {cb : Callback σ ε}
variable {I : σ → Prop} {list : List PushedEvent} {w : PushedEvent}
variable {buf buf' : LogBuffer C σ} {c : C.State}

/-! ### One event -/

/-- A buffered event has all its parents. -/
def Overdue (cb : Callback σ ε) (buf : LogBuffer C σ) (k : EventID) : Prop :=
  ∃ x, C.peek buf.incompletes k = some x ∧ ∀ p ∈ x.event.parents, cb.get buf.env.1 p ≠ none

/-- During a call: only events of the list are buffered, and none of them exists. -/
structure Listed (cb : Callback σ ε) (I : σ → Prop) (list : List PushedEvent)
    (buf : LogBuffer C σ) : Prop where
  env_good : I buf.env.1
  buffered : ∀ k x, C.peek buf.incompletes k = some x →
    k = x.event.hash ∧ x ∈ list ∧ cb.exist buf.env.1 k = false

/-- No event is dropped, none becomes overdue, and the pushed one is not. -/
structure Clears (cb : Callback σ ε) (I : σ → Prop) (list : List PushedEvent) (w : PushedEvent)
    (buf buf' : LogBuffer C σ) : Prop where
  listed : Listed cb I list buf'
  log_eq : buf'.env.2 = buf.env.2
  overdue : ∀ k, Overdue cb buf' k → Overdue cb buf k ∧ k ≠ w.event.hash

/-- What `pushEvent` does with an event. -/
inductive Outcome (cb : Callback σ ε) (I : σ → Prop) (list : List PushedEvent) (w : PushedEvent)
    (buf : LogBuffer C σ) : LogBuffer C σ → Prop
  | waits {c : C.State} (hincomplete : cb.Incomplete buf.env.1 w.event)
      (hc : ∀ k, C.peek c k = C.peek buf.incompletes k) :
      Outcome cb I list w buf ⟨C.add c w.event.hash w, buf.env⟩
  | dropped {c : C.State} {env : σ} (hrefused : ¬ cb.Accepts I w.event) (hgood : I env)
      (hkeeps : cb.Keeps (fun _ => False) buf.env.1 env)
      (hc : ∀ k, C.peek c k = C.peek buf.incompletes k) :
      Outcome cb I list w buf ⟨c, env, buf.env.2 ++ [w.event]⟩
  | clears {buf' : LogBuffer C σ} (h : Clears cb I list w buf buf') :
      Outcome cb I list w buf buf'

lemma Overdue.of_keeps {env : σ × List Event} (hkeeps : cb.Keeps (fun _ => False) buf.env.1 env.1)
    (hc : ∀ k, C.peek c k = C.peek buf.incompletes k) {k : EventID}
    (h : Overdue cb ⟨c, env⟩ k) : Overdue cb buf k := by
  obtain ⟨x, hx, hparents⟩ := h
  refine ⟨x, (hc k).symm.trans hx, fun p hp => ?_⟩
  exact ((hkeeps p).1 (hparents p hp)).resolve_left id

lemma Listed.of_keeps (hbuf : Listed cb I list buf) {env : σ × List Event} (hgood : I env.1)
    (hkeeps : cb.Keeps (fun _ => False) buf.env.1 env.1)
    (hc : ∀ k, C.peek c k = C.peek buf.incompletes k) : Listed cb I list ⟨c, env⟩ := by
  refine ⟨hgood, fun k x hx => ?_⟩
  obtain ⟨hk, hlist, hno⟩ := hbuf.buffered k x ((hc k).symm.trans hx)
  refine ⟨hk, hlist, ?_⟩
  by_contra hyes
  rcases (hkeeps k).2 (by simpa using hyes) with hfalse | hold
  · exact hfalse
  · simp [hno] at hold

/-- After `Process`: the event is out of the buffer, and only its children may have become
overdue. -/
lemma Listed.processed (hcb : cb.Adds I) (hbuf : Listed cb I list buf) (e : Event)
    (hc : ∀ k, C.peek c k = C.peek buf.incompletes k) :
    Listed cb I list ⟨C.remove c e.hash, (cb.refusals.process e buf.env).2⟩ ∧
      ∀ k, Overdue cb ⟨C.remove c e.hash, (cb.refusals.process e buf.env).2⟩ k → k ≠ e.hash ∧
        (Overdue cb buf k ∨ ∃ x ∈ list, x.event.hash = k ∧ e.hash ∈ x.event.parents) := by
  obtain ⟨hgood, hkeeps⟩ := hcb.process_keeps _ hbuf.env_good e
  have hpeek : ∀ k x, C.peek (C.remove c e.hash) k = some x →
      k ≠ e.hash ∧ C.peek buf.incompletes k = some x := by
    intro k x hx
    rw [C.peek_remove, hc] at hx
    split_ifs at hx with hk
    exact ⟨hk, hx⟩
  refine ⟨⟨hgood, fun k x hx => ?_⟩, fun k hk => ?_⟩
  · obtain ⟨hne, hx⟩ := hpeek k x hx
    obtain ⟨hkey, hlist, hno⟩ := hbuf.buffered k x hx
    refine ⟨hkey, hlist, ?_⟩
    by_contra hyes
    rcases (hkeeps k).2 (Bool.eq_true_of_not_eq_false hyes) with ⟨-, heq⟩ | hold
    · exact hne heq
    · simp [hno] at hold
  · obtain ⟨x, hx, hparents⟩ := hk
    obtain ⟨hne, hx⟩ := hpeek k x hx
    obtain ⟨hkey, hlist, -⟩ := hbuf.buffered k x hx
    refine ⟨hne, ?_⟩
    by_cases hchild : e.hash ∈ x.event.parents
    · exact .inr ⟨x, hlist, hkey.symm, hchild⟩
    · refine .inl ⟨x, hx, fun p hp => ?_⟩
      rcases (hkeeps p).1 (hparents p hp) with ⟨-, rfl⟩ | hold
      · exact absurd hp hchild
      · exact hold

/-! ### The recursion -/

variable (C cb I list) in
/-- The calls for the children of an event return and clear them. -/
def ChildrenClear (fuel : ℕ) (eHash : EventID) : Prop :=
  ∀ x ∈ list, eHash ∈ x.event.parents → ∀ b : LogBuffer C σ, Listed cb I list b →
    ∃ b', pushEvent cb.refusals fuel x list false b = .ok b' ∧ Clears cb I list x b b'

/-- The loop over the children of a processed event leaves none of them overdue. -/
lemma children_clear (eHash : EventID) {fuel : ℕ} (ih : ChildrenClear C cb I list fuel eHash)
    (hbuf : Listed cb I list buf) :
    ∃ b, list.foldlM
        (fun buf child => child.event.parents.foldlM
          (fun buf parent => if parent = eHash then pushEvent cb.refusals fuel child list false buf
            else .ok buf) buf) buf = .ok b ∧
      Listed cb I list b ∧ b.env.2 = buf.env.2 ∧ (∀ k, Overdue cb b k → Overdue cb buf k) ∧
      ∀ x ∈ list, eHash ∈ x.event.parents → ¬ Overdue cb b x.event.hash := by
  refine foldlM_ok _ list buf (fun done b => Listed cb I list b ∧ b.env.2 = buf.env.2 ∧
    (∀ k, Overdue cb b k → Overdue cb buf k) ∧
    ∀ x ∈ done, eHash ∈ x.event.parents → ¬ Overdue cb b x.event.hash)
    ⟨hbuf, rfl, fun _ h => h, by simp⟩ ?_
  rintro done x rest b hl ⟨hb, hlog, hsub, hdone⟩
  have hx : x ∈ list := by simp [hl]
  have hinner := foldlM_ok (fun buf parent => if parent = eHash then
    pushEvent cb.refusals fuel x list false buf else .ok buf) x.event.parents b
    (fun seen b => Listed cb I list b ∧ b.env.2 = buf.env.2 ∧
      (∀ k, Overdue cb b k → Overdue cb buf k) ∧
      (∀ x ∈ done, eHash ∈ x.event.parents → ¬ Overdue cb b x.event.hash) ∧
      (eHash ∈ seen → ¬ Overdue cb b x.event.hash)) ⟨hb, hlog, hsub, hdone, by simp⟩ ?_
  · obtain ⟨b', hrun, hb', hlog', hsub', hdone', hlast⟩ := hinner
    refine ⟨b', hrun, hb', hlog', hsub', fun y hy hparent => ?_⟩
    rcases List.mem_append.mp hy with hy | hy
    · exact hdone' y hy hparent
    · rw [List.mem_singleton.mp hy] at hparent ⊢
      exact hlast hparent
  · rintro seen parent rest b hparents ⟨hb, hlog, hsub, hdone, hseen⟩
    split_ifs with hp
    · obtain ⟨b', hrun, hclears⟩ := ih x hx (by simp [hparents, hp]) b hb
      refine ⟨b', hrun, hclears.listed, hclears.log_eq.trans hlog, ?_, ?_, ?_⟩
      · exact fun k hk => hsub k (hclears.overdue k hk).1
      · exact fun y hy hparent hk => hdone y hy hparent (hclears.overdue _ hk).1
      · exact fun _ hk => (hclears.overdue _ hk).2 rfl
    · refine ⟨b, rfl, hb, hlog, hsub, hdone, fun hm => hseen ?_⟩
      rcases List.mem_append.mp hm with hm | hm
      · exact hm
      · exact absurd (List.mem_singleton.mp hm).symm hp

/-- One call of `pushEvent`, when those for the children return and clear them. -/
lemma pushEvent_outcome (hcb : cb.Adds I) {fuel : ℕ}
    (ih : ChildrenClear C cb I list fuel w.event.hash)
    (strict : Bool) (hbuf : Listed cb I list buf) :
    ∃ buf', pushEvent cb.refusals (fuel + 1) w list strict buf = .ok buf' ∧
      Outcome cb I list w buf buf' := by
  rw [pushEvent]
  by_cases hexist : cb.exist buf.env.1 w.event.hash = true
  · rw [if_pos (show cb.refusals.exist buf.env w.event.hash = true from hexist)]
    have hne : ∀ k, Overdue cb buf k → k ≠ w.event.hash := by
      rintro k ⟨x, hx, -⟩ rfl
      simp [(hbuf.buffered _ x hx).2.2] at hexist
    cases strict with
    | false => exact ⟨buf, rfl, .clears ⟨hbuf, rfl, fun k hk => ⟨hk, hne k hk⟩⟩⟩
    | true =>
      obtain ⟨hgood, hkeeps⟩ := hcb.drop_keeps _ hbuf.env_good w.event w.peer
        cb.errAlreadyConnectedEvent
      refine ⟨_, rfl, .clears ⟨hbuf.of_keeps hgood hkeeps fun _ => rfl, rfl, fun k hk => ?_⟩⟩
      have hold := Overdue.of_keeps hkeeps (fun _ => rfl) hk
      exact ⟨hold, hne k hold⟩
  have hno : cb.exist buf.env.1 w.event.hash = false := by simpa using hexist
  rw [if_neg (show ¬ cb.refusals.exist buf.env w.event.hash = true from hexist)]
  rcases findParents_cases cb.refusals w w.event.parents buf with
    ⟨parents, c, hrun, hc, hmap⟩ | ⟨c, hrun, hc, hmissing⟩
  · simp only [hrun, Callback.refusals_check]
    cases hcheck : cb.check.bind fun check => check buf.env.1 w.event parents with
    | some err =>
      obtain ⟨hgood, hkeeps⟩ := hcb.drop_keeps _ hbuf.env_good w.event w.peer err
      refine ⟨_, rfl, .dropped (fun haccepts => ?_) hgood hkeeps hc⟩
      simp [(haccepts _ hbuf.env_good hno parents hmap).1] at hcheck
    | none =>
      have hprocess := hcb.process_keeps _ hbuf.env_good w.event
      cases hok : (cb.process w.event buf.env.1).1 with
      | some err =>
        obtain ⟨hgood, hkeeps⟩ := hcb.drop_keeps _ hprocess.1 w.event w.peer err
        have hrefused : ¬ cb.Accepts I w.event := by
          intro haccepts
          simp [(haccepts _ hbuf.env_good hno parents hmap).2] at hok
        have hkeeps' := hprocess.2.trans_not (by simp [hok]) hkeeps
        refine ⟨_, ?_, .dropped hrefused hgood hkeeps' hc⟩
        simp [Callback.refusals, hok]
      | none =>
        obtain ⟨hlisted, hoverdue⟩ := hbuf.processed hcb w.event hc
        obtain ⟨b, hb, hlisted', hlog, hsub, hchildren⟩ := children_clear w.event.hash ih hlisted
        refine ⟨b, ?_, .clears ⟨hlisted', hlog, fun k hk => ?_⟩⟩
        · have hpair : cb.refusals.process w.event buf.env =
              (none, (cb.refusals.process w.event buf.env).2) := by
            simp [Callback.refusals, hok]
          rw [Option.map_none]
          simp only
          rw [hpair]
          exact hb
        · obtain ⟨hne, hold | ⟨x, hx, rfl, hparent⟩⟩ := hoverdue k (hsub k hk)
          · exact ⟨hold, hne⟩
          · exact absurd hk (hchildren x hx hparent)
  · rw [hrun]
    exact ⟨_, rfl, .waits ⟨hno, hmissing⟩ hc⟩

variable {events : Finset Event}

/-- An event that is added again, or for the first time, is not overdue. -/
lemma Listed.add (hbuf : Listed cb I list buf) (hw : w ∈ list)
    (hincomplete : cb.Incomplete buf.env.1 w.event)
    (hpeek : ∀ k, C.peek (C.add c w.event.hash w) k =
      if k = w.event.hash then some w else C.peek buf.incompletes k) :
    Clears cb I list w buf ⟨C.add c w.event.hash w, buf.env⟩ := by
  refine ⟨⟨hbuf.env_good, fun k x hx => ?_⟩, rfl, ?_⟩
  · simp only [hpeek] at hx
    split_ifs at hx with hk
    · cases hx
      exact ⟨hk, hw, hk ▸ hincomplete.1⟩
    · exact hbuf.buffered k x hx
  · rintro k ⟨x, hx, hparents⟩
    simp only [hpeek] at hx
    split_ifs at hx with hk
    · cases hx
      obtain ⟨p, hp, hnone⟩ := hincomplete.2
      exact absurd hnone (hparents p hp)
    · exact ⟨⟨x, hx, hparents⟩, hk⟩

/-- Each event of the list returns, since its children have fewer descendants, and is cleared. -/
lemma pushEvent_clears (hcb : cb.Adds I) (hevents : Hashed events)
    (hlist : ∀ x ∈ list, x.event ∈ events ∧ cb.Accepts I x.event)
    (hsize : (list.map (·.event.hash)).toFinset.card ≤ size) {fuel : ℕ} (hw : w ∈ list)
    (hbuf : Listed cb I list buf) (hfuel : (descendants events w.event).card < fuel) :
    ∃ buf', pushEvent cb.refusals fuel w list false buf = .ok buf' ∧
      Clears cb I list w buf buf' := by
  induction fuel generalizing w buf with
  | zero => exact absurd hfuel (Nat.not_lt_zero _)
  | succ fuel ih =>
    have hchildren : ChildrenClear C cb I list fuel w.event.hash := by
      intro x hx hparent b hb
      apply ih hx hb
      exact (hevents.card_descendants_lt ⟨(hlist w hw).1, (hlist x hx).1, hparent⟩).trans_le
        (Nat.lt_succ_iff.mp hfuel)
    obtain ⟨buf', hrun, hout⟩ := pushEvent_outcome hcb hchildren false hbuf
    refine ⟨buf', hrun, ?_⟩
    cases hout with
    | waits hincomplete hc =>
      apply hbuf.add hw hincomplete
      intro k
      rw [C.peek_add (fun j hj => ?_) (List.mem_toFinset.mpr (List.mem_map_of_mem hw)) hsize, hc]
      rw [LruCache.mem_keys_congr hc, C.mem_keys_iff] at hj
      obtain ⟨x, hx⟩ := hj
      obtain ⟨rfl, hx, -⟩ := hbuf.buffered j x hx
      exact List.mem_toFinset.mpr (List.mem_map_of_mem hx)
    | dropped hrefused => exact absurd (hlist w hw).2 hrefused
    | clears h => exact h

/-! ### Calls of `PushEvent` -/

/-- `EventBuffer.PushEvent`, with the events that are refused during the call. -/
def call (cb : Callback σ ε) (fuel : ℕ) (w : PushedEvent) (buf : LogBuffer C σ) :
    Except Fault (LogBuffer C σ) :=
  push cb.refusals fuel w { buf with env := (buf.env.1, []) }

/-- Calls one after the other. -/
def calls (cb : Callback σ ε) (fuel : ℕ) (es : List PushedEvent)
    (buf : LogBuffer C σ) : Except Fault (LogBuffer C σ) :=
  es.foldlM (fun buf w => call cb fuel w buf) buf

/-- `P` holds of the buffer before each call and the event that is pushed. -/
def AtCalls (cb : Callback σ ε) (fuel : ℕ)
    (P : LogBuffer C σ → PushedEvent → Prop) :
    List PushedEvent → LogBuffer C σ → Prop
  | [], _ => True
  | w :: es, buf => P buf w ∧
      match call cb fuel w buf with
      | .ok buf' => AtCalls cb fuel P es buf'
      | .error _ => True

/-- An event that has to wait evicts no other. -/
def Room (cb : Callback σ ε) (buf : LogBuffer C σ) (w : PushedEvent) : Prop :=
  cb.Incomplete buf.env.1 w.event →
    (insert w.event.hash (C.keys buf.incompletes).toFinset).card ≤ size

/-- An event that has to wait is none that `Check` or `Process` refuses later. -/
def Orderly (cb : Callback σ ε) (I : σ → Prop) (buf : LogBuffer C σ)
    (w : PushedEvent) : Prop :=
  cb.Incomplete buf.env.1 w.event → cb.Accepts I w.event

/-- After a call each buffered event has a missing parent, and none is buffered for which `Check`
or `Process` failed during the call. -/
structure Forgets (cb : Callback σ ε) (buf : LogBuffer C σ) : Prop where
  waiting : ∀ k x, C.peek buf.incompletes k = some x →
    ∃ p ∈ x.event.parents, cb.get buf.env.1 p = none
  forgotten : ∀ e ∈ buf.env.2, e.hash ∉ C.keys buf.incompletes

/-- The buffer between two calls. -/
structure Calm (cb : Callback σ ε) (I : σ → Prop) (events : Finset Event)
    (buf : LogBuffer C σ) : Prop extends Forgets cb buf where
  env_good : I buf.env.1
  buffered : ∀ k x, C.peek buf.incompletes k = some x → k = x.event.hash ∧
    cb.exist buf.env.1 k = false ∧ x.event ∈ events ∧ cb.Accepts I x.event

lemma forgets_waiting (h : ∀ k, ¬ Overdue cb buf k) :
    ∀ k x, C.peek buf.incompletes k = some x → ∃ p ∈ x.event.parents, cb.get buf.env.1 p = none := by
  intro k x hx
  by_contra hall
  exact h k ⟨x, hx, fun p hp hnone => hall ⟨p, hp, hnone⟩⟩

lemma Listed.calm (h : Listed cb I list buf)
    (hlist : ∀ x ∈ list, x.event ∈ events ∧ cb.Accepts I x.event)
    (hoverdue : ∀ k, ¬ Overdue cb buf k)
    (hforgotten : ∀ e ∈ buf.env.2, e.hash ∉ C.keys buf.incompletes) : Calm cb I events buf := by
  refine ⟨⟨forgets_waiting hoverdue, hforgotten⟩, h.env_good, fun k x hx => ?_⟩
  obtain ⟨hk, hx, hno⟩ := h.buffered k x hx
  exact ⟨hk, hno, hlist x hx⟩

lemma Clears.calm (h : Clears cb I list w buf buf') (hlog : buf.env.2 = [])
    (hlist : ∀ x ∈ list, x.event ∈ events ∧ cb.Accepts I x.event)
    (hoverdue : ∀ k, ¬ Overdue cb buf k) : Calm cb I events buf' := by
  apply h.listed.calm hlist
  · exact fun k hk => hoverdue k (h.overdue k hk).1
  · rw [h.log_eq, hlog]
    simp

/-- A call returns, and the buffer is calm again. -/
lemma Calm.call (hcb : cb.Adds I) (hevents : Hashed events) {fuel : ℕ} (hfuel : events.card < fuel)
    (hbuf : Calm cb I events buf) (hw : w.event ∈ events) (hroom : Room cb buf w)
    (horderly : Orderly cb I buf w) :
    ∃ buf', call cb fuel w buf = .ok buf' ∧ Calm cb I events buf' := by
  obtain ⟨fuel, rfl⟩ := Nat.exists_eq_succ_of_ne_zero (Nat.ne_zero_of_lt hfuel)
  let start : LogBuffer C σ := { buf with env := (buf.env.1, []) }
  let list := start.getIncompleteEventsList
  have hmem : ∀ x ∈ list, C.peek buf.incompletes x.event.hash = some x := by
    intro x hx
    obtain ⟨k, hk⟩ := mem_getIncompleteEventsList.mp hx
    rw [← (hbuf.buffered k x hk).1]
    exact hk
  have hlist : ∀ x ∈ list, x.event ∈ events ∧ cb.Accepts I x.event :=
    fun x hx => (hbuf.buffered _ x (hmem x hx)).2.2
  have hlisted : Listed cb I list start := by
    refine ⟨hbuf.env_good, fun k x hx => ?_⟩
    obtain ⟨hk, hno, -⟩ := hbuf.buffered k x hx
    exact ⟨hk, mem_getIncompleteEventsList.mpr ⟨k, hx⟩, hno⟩
  have hsize : (list.map (·.event.hash)).toFinset.card ≤ size := by
    refine (Finset.card_le_card fun k hk => ?_).trans
      ((List.toFinset_card_le _).trans (C.length_keys_le buf.incompletes))
    obtain ⟨x, hx, rfl⟩ := List.mem_map.mp (List.mem_toFinset.mp hk)
    exact List.mem_toFinset.mpr (C.mem_keys_iff.mpr ⟨x, hmem x hx⟩)
  have hoverdue : ∀ k, ¬ Overdue cb start k := by
    rintro k ⟨x, hx, hparents⟩
    obtain ⟨p, hp, hnone⟩ := hbuf.waiting k x hx
    exact hparents p hp hnone
  have hchildren : ChildrenClear C cb I list fuel w.event.hash := by
    intro x hx hparent b hb
    apply pushEvent_clears hcb hevents hlist hsize hx hb
    exact (hevents.card_descendants_lt ⟨hw, (hlist x hx).1, hparent⟩).trans_le
      (card_descendants_le.trans (Nat.lt_succ_iff.mp hfuel))
  obtain ⟨buf', hrun, hout⟩ := pushEvent_outcome hcb hchildren true hlisted
  refine ⟨buf', hrun, ?_⟩
  cases hout with
  | waits hincomplete hc =>
    have hlisted' : Listed cb I (w :: list) start := by
      refine ⟨hlisted.env_good, fun k x hx => ?_⟩
      obtain ⟨hk, hx, hno⟩ := hlisted.buffered k x hx
      exact ⟨hk, List.mem_cons_of_mem _ hx, hno⟩
    have hadd := hlisted'.add (List.mem_cons_self) hincomplete fun k => by
      rw [C.peek_add (fun j hj => ?_) (Finset.mem_insert_self _ _) (hroom hincomplete), hc]
      rw [LruCache.mem_keys_congr hc] at hj
      exact Finset.mem_insert_of_mem (List.mem_toFinset.mpr hj)
    apply hadd.calm rfl _ hoverdue
    exact List.forall_mem_cons.mpr ⟨⟨hw, horderly hincomplete⟩, hlist⟩
  | dropped hrefused hgood hkeeps hc =>
    apply (hlisted.of_keeps hgood hkeeps hc).calm hlist
    · exact fun k hk => hoverdue k (.of_keeps hkeeps hc hk)
    · intro e he hkey
      obtain rfl := List.mem_singleton.mp he
      rw [LruCache.mem_keys_congr hc, C.mem_keys_iff] at hkey
      obtain ⟨x, hx⟩ := hkey
      -- the id is that of a buffered event, which would be accepted
      obtain ⟨heq, -, hxe, haccepts⟩ := hbuf.buffered _ x hx
      rw [hevents.hash_inj _ hw _ hxe heq] at hrefused
      exact hrefused haccepts
  | clears h => exact h.calm rfl hlist hoverdue

/-- Orderly pushes that find room keep the buffer calm. -/
lemma Calm.calls (hcb : cb.Adds I) (hevents : Hashed events) {fuel : ℕ} (hfuel : events.card < fuel)
    {es done : List PushedEvent} (hes : ∀ w ∈ es, w.event ∈ events) (hbuf : Calm cb I events buf)
    (hroom : AtCalls cb fuel (Room cb) es buf) (horderly : AtCalls cb fuel (Orderly cb I) es buf)
    (hdone : done <+: es) : ∃ buf', calls cb fuel done buf = .ok buf' ∧ Calm cb I events buf' := by
  induction es generalizing buf done with
  | nil =>
    rw [List.prefix_nil.mp hdone]
    exact ⟨buf, rfl, hbuf⟩
  | cons w es ih =>
    rcases List.prefix_cons_iff.mp hdone with rfl | ⟨done, rfl, hrest⟩
    · exact ⟨buf, rfl, hbuf⟩
    · obtain ⟨hw, hes⟩ := List.forall_mem_cons.mp hes
      obtain ⟨buf', hrun, hbuf'⟩ := hbuf.call hcb hevents hfuel hw hroom.1 horderly.1
      rw [AtCalls, hrun] at hroom horderly
      obtain ⟨buf'', hrun', hbuf''⟩ := ih hes hbuf' hroom.2 horderly.2 hrest
      refine ⟨buf'', ?_, hbuf''⟩
      rw [EventBuffer.calls, List.foldlM_cons, hrun]
      exact hrun'

/-- In a sequence of calls of `PushEvent` that evicts nothing, and in which an event that `Check` or
`Process` may refuse is pushed only when its parents are found, each call returns and the buffer
forgets the events that are dropped during it. -/
theorem calls_forget (hcb : cb.Adds I) (hevents : Hashed events) {env : σ} (henv : I env) {fuel : ℕ}
    (hfuel : events.card < fuel) {es : List PushedEvent} (hes : ∀ w ∈ es, w.event ∈ events)
    (hroom : AtCalls cb fuel (Room cb) es (new (env, []) : LogBuffer C σ))
    (horderly : AtCalls cb fuel (Orderly cb I) es
      (new (env, []) : LogBuffer C σ)) :
    ∀ done, done <+: es → ∃ buf : LogBuffer C σ,
      calls cb fuel done (new (env, [])) = .ok buf ∧ Forgets cb buf := by
  intro done hdone
  have hstart : Calm cb I events (new (env, []) : LogBuffer C σ) := by
    refine ⟨⟨?_, by simp [new]⟩, henv, ?_⟩
    · simp [new, C.peek_empty]
    · simp [new, C.peek_empty]
  obtain ⟨buf, hrun, hbuf⟩ := hstart.calls hcb hevents hfuel hes hroom horderly hdone
  exact ⟨buf, hrun, hbuf.toForgets⟩

/-! ### An event that `Process` refuses -/

/-- The events are kept in memory, but `Process` refuses one of them. -/
def refusing (refused : EventID) : Callback (List Event) String :=
  { Callback.memory with
    process := fun e s =>
      if e.hash = refused then (some "refused", s) else Callback.memory.process e s }

lemma memory_keeps_concat (s : List Event) (e : Event) :
    Callback.memory.Keeps (· = e.hash) s (s ++ [e]) := by
  intro id
  have hget : ∀ s, Callback.memory.get s id ≠ none ↔ Callback.memory.exist s id = true := by
    intro s
    rw [← (Callback.memory_connects ∅).get_isSome s trivial id, Option.isSome_iff_ne_none]
  rw [hget, hget]
  have hexist : Callback.memory.exist (s ++ [e]) id = true →
      id = e.hash ∨ Callback.memory.exist s id = true := by
    simp only [Callback.memory, List.any_append, List.any_cons, List.any_nil, Bool.or_false,
      Bool.or_eq_true, decide_eq_true_eq]
    rintro (hold | rfl)
    · exact .inr hold
    · exact .inl rfl
  exact ⟨hexist, hexist⟩

lemma refusing_process (refused : EventID) (e : Event) (s : List Event) :
    (∃ err, (refusing refused).process e s = (some err, s)) ∨
      (refusing refused).process e s = (none, s ++ [e]) := by
  unfold refusing Callback.memory
  dsimp only
  split_ifs
  · exact .inl ⟨_, rfl⟩
  · exact .inl ⟨_, rfl⟩
  · exact .inr rfl
  · exact .inl ⟨_, rfl⟩

lemma adds_refusing (refused : EventID) : (refusing refused).Adds fun _ => True where
  process_keeps s _ e := by
    refine ⟨trivial, ?_⟩
    rcases refusing_process refused e s with ⟨err, h⟩ | h
    · rw [h]
      exact .refl
    · rw [h]
      intro id
      have hkeeps := memory_keeps_concat s e id
      constructor
      · exact fun hget => (hkeeps.1 hget).imp_left fun heq => ⟨rfl, heq⟩
      · exact fun hexist => (hkeeps.2 hexist).imp_left fun heq => ⟨rfl, heq⟩
  drop_keeps s _ e peer err := ⟨trivial, Callback.Keeps.refl (s := s)⟩

lemma accepts_refusing {refused : EventID} {e : Event} (h : e.hash ≠ refused) :
    (refusing refused).Accepts (fun _ => True) e := by
  intro s _ hno parents hparents
  refine ⟨rfl, ?_⟩
  have hexist : ∀ p ∈ e.parents, Callback.memory.exist s p = true := by
    intro p hp
    have hget : Callback.memory.get s p ∈ parents.map some := hparents ▸ List.mem_map_of_mem hp
    obtain ⟨parent, -, hparent⟩ := List.mem_map.mp hget
    rw [← (Callback.memory_connects ∅).get_isSome s trivial, ← hparent, Option.isSome_some]
  have hprocess := (Callback.memory_connects {e}).process_ok s trivial e
    (Finset.mem_singleton_self e) hno hexist
  simp only [refusing, if_neg h]
  exact hprocess.1

instance decidableIncomplete (cb : Callback σ ε) (s : σ) (e : Event) :
    Decidable (cb.Incomplete s e) :=
  inferInstanceAs (Decidable (_ ∧ ∃ p ∈ e.parents, cb.get s p = none))

instance decidableRoom (cb : Callback σ ε) (buf : LogBuffer C σ)
    (w : PushedEvent) : Decidable (Room cb buf w) :=
  inferInstanceAs (Decidable (_ → _))

instance decidableAtCalls (cb : Callback σ ε) (fuel : ℕ)
    (P : LogBuffer C σ → PushedEvent → Prop) [∀ buf w, Decidable (P buf w)] :
    (es : List PushedEvent) → (buf : LogBuffer C σ) →
      Decidable (AtCalls cb fuel P es buf)
  | [], _ => .isTrue trivial
  | w :: es, buf =>
    have : Decidable (match call cb fuel w buf with
        | .ok buf' => AtCalls cb fuel P es buf'
        | .error _ => True) :=
      match call cb fuel w buf with
      | .ok buf' => decidableAtCalls cb fuel P es buf'
      | .error _ => .isTrue trivial
    inferInstanceAs (Decidable (_ ∧ _))

lemma AtCalls.imp {fuel : ℕ} {P Q : LogBuffer C σ → PushedEvent → Prop}
    (hPQ : ∀ buf w, P buf w → Q buf w) {es : List PushedEvent} (h : AtCalls cb fuel P es buf) :
    AtCalls cb fuel Q es buf := by
  induction es generalizing buf with
  | nil => trivial
  | cons w es ih =>
    obtain ⟨hw, hes⟩ := h
    refine ⟨hPQ buf w hw, ?_⟩
    cases hcall : call cb fuel w buf with
    | error fault => trivial
    | ok buf' =>
      rw [hcall] at hes
      exact ih hes

/-- The child waits for its parent, fails when the parent is there, and is still buffered. -/
theorem not_forgets_child_first :
    ∃ buf : EventBuffer (Lru.cache EventID PushedEvent 2).toLruCache (List Event × List Event),
      calls (refusing childEvent.hash) 4 [⟨childEvent, "a"⟩, ⟨parentEvent, "b"⟩] (new ([], [])) =
        .ok buf ∧ ¬ Forgets (refusing childEvent.hash) buf := by
  have hrun : (calls (refusing childEvent.hash) 4 [⟨childEvent, "a"⟩, ⟨parentEvent, "b"⟩]
      (new ([], []) : EventBuffer (Lru.cache EventID PushedEvent 2).toLruCache _)).map (fun buf =>
        ((Lru.cache EventID PushedEvent 2).keys buf.incompletes, buf.env)) =
      .ok ([childEvent.hash], [parentEvent], [childEvent]) := by decide +kernel
  obtain ⟨buf, hbuf, heq⟩ := map_eq_ok_iff.mp hrun
  obtain ⟨hkeys, henv⟩ := Prod.mk.inj heq
  refine ⟨buf, hbuf, fun hforgets => hforgets.forgotten childEvent ?_ ?_⟩
  · simp [henv]
  · rw [hkeys]
    exact List.mem_singleton_self _

/-- Another child of the parent. -/
def refusedEvent : Event := { childEvent with creator := 2, digest := 3 }

/-- The child waits for its parent, and the refused event comes after it. -/
def orderlyPushes : List PushedEvent :=
  [⟨childEvent, "a"⟩, ⟨parentEvent, "b"⟩, ⟨refusedEvent, "a"⟩]

theorem calls_forget_refused_last :
    (∀ done, done <+: orderlyPushes →
      ∃ buf : EventBuffer (Lru.cache EventID PushedEvent 1).toLruCache (List Event × List Event),
        calls (refusing refusedEvent.hash) 4 done (new ([], [])) = .ok buf ∧
          Forgets (refusing refusedEvent.hash) buf) ∧
    (calls (refusing refusedEvent.hash) 4 orderlyPushes (new ([], []) :
      EventBuffer (Lru.cache EventID PushedEvent 1).toLruCache _)).map (·.env) =
        .ok ([parentEvent, childEvent], [refusedEvent]) := by
  have hevents : Hashed {parentEvent, childEvent, refusedEvent} :=
    .of_lamport (by decide +kernel) (by decide +kernel)
  have horderly : AtCalls (refusing refusedEvent.hash) 4
      (fun buf w => (refusing refusedEvent.hash).Incomplete buf.env.1 w.event →
        w.event.hash ≠ refusedEvent.hash) orderlyPushes
      (new ([], []) : EventBuffer (Lru.cache EventID PushedEvent 1).toLruCache _) := by
    decide +kernel
  refine ⟨?_, by decide +kernel⟩
  exact calls_forget (adds_refusing refusedEvent.hash) hevents trivial (by decide +kernel)
    (by decide +kernel) (by decide +kernel)
    (horderly.imp fun buf w h hincomplete => accepts_refusing (h hincomplete))

end EventBuffer

end Lachesis
