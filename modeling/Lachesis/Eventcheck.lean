import Lachesis.Core.ForkDag
import Lachesis.Inter.Pos

/-!
# Event checks

The checks an event passes before the consensus engine sees it, as far as they concern consensus
fields, and the graph of the events that passed them. Signatures, gas and transactions are checked
too; nothing here depends on them.
-/

namespace Lachesis

open Lachesis.Core

/-! ### The checks -/

namespace Basiccheck

/-- The errors of `basiccheck`. -/
inductive Err
  | noParents
  | tooManyParents
  | notInited
  | zeroTime
  | hugeValue
  deriving DecidableEq, Repr

/-- `math.MaxInt32 / 2` -/
def maxIndex : ℕ := 1073741823

/-- `Checker.checkLimits` -/
def checkLimits (maxParents : ℕ) (e : Event) : Option Err :=
  if maxParents < e.parents.length then some .tooManyParents
  else if maxIndex ≤ e.seq ∨ maxIndex ≤ e.epoch ∨ maxIndex ≤ e.frame ∨ maxIndex ≤ e.lamport then
    some .hugeValue
  else none

/-- `Checker.checkInited` -/
def checkInited (e : Event) : Option Err :=
  if e.seq ≤ 0 ∨ e.epoch ≤ 0 ∨ e.frame ≤ 0 ∨ e.lamport ≤ 0 then some .notInited
  else if e.claimedTime ≤ 0 then some .zeroTime
  else if 1 < e.seq ∧ e.parents.length = 0 then some .noParents
  else none

/-- `Checker.Validate` of `basiccheck`. -/
def validate (maxParents : ℕ) (e : Event) : Option Err :=
  (checkLimits maxParents e).or (checkInited e)

end Basiccheck

namespace Parentscheck

/-- The errors of `parentscheck`. -/
inductive Err
  | wrongSeq
  | wrongLamport
  | doubleParents
  | wrongSelfParent
  | pastTime
  deriving DecidableEq, Repr

/-- The last part of `Checker.Validate`: number and time against the self-parent. -/
def checkSelfParent (e : Event) (parents : List Event) : Except Fault (Option Err) :=
  match e.selfParent, parents with
  | none, _ => .ok none
  | some _, [] => .error .indexOutOfRange
  | some _, selfParent :: _ =>
    if !e.isSelfParent selfParent.hash then .ok (some .wrongSelfParent)
    else if e.seq ≠ (selfParent.seq + 1) % 2 ^ 32 then .ok (some .wrongSeq)
    else if e.claimedTime ≤ selfParent.claimedTime then .ok (some .pastTime)
    else .ok none

/-- `Checker.Validate` of `parentscheck`, given the headers of the parents. -/
def validate (e : Event) (parents : List Event) : Except Fault (Option Err) :=
  if e.parents.length ≠ parents.length then .error .panicked
  else if e.lamport ≠ (parents.foldl (fun m p => max m p.lamport) 0 + 1) % 2 ^ 32 then
    .ok (some .wrongLamport)
  else if ¬ e.parents.Nodup then .ok (some .doubleParents)
  else if (parents.zip e.parents).any fun (p, id) =>
      decide (p.creator = e.creator) != e.isSelfParent id then
    .ok (some .wrongSelfParent)
  else if decide (e.seq ≤ 1) != e.selfParent.isNone then .ok (some .wrongSeq)
  else checkSelfParent e parents

end Parentscheck

namespace Epochcheck

/-- The errors of `epochcheck`. -/
inductive Err
  | notRelevant
  | auth
  deriving DecidableEq, Repr

/-- `Checker.Validate` of `epochcheck`. -/
def validate (V : Validators) (epoch : ℕ) (e : Event) : Option Err :=
  if e.epoch ≠ epoch then some .notRelevant
  else if !V.existsId e.creator then some .auth
  else none

end Epochcheck

/-! ### The graph of stored events -/

/-- A graph of events. -/
abbrev EventDag := ForkDag EventID StakerID

/-- The graph of the events that `getEvent` knows. -/
def eventDag (getEvent : GetEvent) : EventDag where
  parents id := ((getEvent id).map (·.parents)).getD []
  creator id := ((getEvent id).map (·.creator)).getD 0
  seq id := ((getEvent id).map (·.seq)).getD 0
  selfParent id := (getEvent id).bind (·.selfParent)

/-- The event is stored under its identifier and passed the checks. -/
structure Checked (maxParents : ℕ) (getEvent : GetEvent) (e : Event) : Prop where
  stored : getEvent e.hash = some e
  basic : Basiccheck.validate maxParents e = none
  parents : ∃ ps, e.parents.map getEvent = ps.map some ∧ Parentscheck.validate e ps = .ok none

lemma mapM_eq_some {α β : Type} {f : α → Option β} {l : List α} {ys : List β} :
    l.mapM f = some ys ↔ l.map f = ys.map some := by
  induction l generalizing ys with
  | nil => cases ys <;> simp
  | cons x l ih =>
    cases hx : f x <;> cases ys <;> simp [List.mapM_cons, hx, ← ih, Option.bind_eq_some_iff, and_comm]

instance (maxParents : ℕ) (getEvent : GetEvent) (e : Event) :
    Decidable (Checked maxParents getEvent e) :=
  decidable_of_iff (getEvent e.hash = some e ∧ Basiccheck.validate maxParents e = none ∧
      (e.parents.mapM getEvent).any fun ps => Parentscheck.validate e ps = .ok none) <| by
    simp only [Option.any_eq_true, mapM_eq_some, decide_eq_true_eq]
    exact ⟨fun ⟨hs, hb, hp⟩ => ⟨hs, hb, hp⟩, fun h => ⟨h.stored, h.basic, h.parents⟩⟩

lemma Basiccheck.checkLimits_eq_none {maxParents : ℕ} {e : Event} :
    checkLimits maxParents e = none ↔ e.parents.length ≤ maxParents ∧
      e.seq < maxIndex ∧ e.epoch < maxIndex ∧ e.frame < maxIndex ∧ e.lamport < maxIndex := by
  unfold checkLimits
  split_ifs with h₁ h₂ <;> simp only [false_iff, true_iff] <;> omega

lemma Basiccheck.checkInited_eq_none {e : Event} :
    checkInited e = none ↔ 0 < e.seq ∧ 0 < e.epoch ∧ 0 < e.frame ∧ 0 < e.lamport ∧
      0 < e.claimedTime ∧ (1 < e.seq → e.parents ≠ []) := by
  simp only [checkInited, List.length_eq_zero_iff]
  split_ifs with h₁ h₂ h₃ <;> simp only [false_iff, true_iff]
  · omega
  · exact fun h => absurd h.2.2.2.2.1 (UInt64.not_lt.mpr h₂)
  · exact fun h => h.2.2.2.2.2 h₃.1 h₃.2
  · exact ⟨by omega, by omega, by omega, by omega, UInt64.not_le.mp h₂, fun h h' => h₃ ⟨h, h'⟩⟩

lemma Parentscheck.checkSelfParent_eq_none {e p : Event} {ps : List Event} {id : EventID}
    (hid : e.selfParent = some id) :
    checkSelfParent e (p :: ps) = .ok none ↔
      p.hash = id ∧ e.seq = (p.seq + 1) % 2 ^ 32 ∧ p.claimedTime < e.claimedTime := by
  simp only [checkSelfParent, hid, Event.isSelfParent, Option.some.injEq, ← UInt64.not_le,
    eq_comm (a := id)]
  split_ifs with h₁ h₂ h₃ <;> simp_all

lemma Parentscheck.validate_eq_none {e : Event} {ps : List Event} :
    validate e ps = .ok none ↔ e.parents.length = ps.length ∧
      e.lamport = (ps.foldl (fun m p => max m p.lamport) 0 + 1) % 2 ^ 32 ∧ e.parents.Nodup ∧
      (∀ q ∈ ps.zip e.parents, q.1.creator = e.creator ↔ e.selfParent = some q.2) ∧
      (e.seq ≤ 1 ↔ e.selfParent = none) ∧ checkSelfParent e ps = .ok none := by
  have hself : ((ps.zip e.parents).any fun (p, id) =>
      decide (p.creator = e.creator) != e.isSelfParent id) = true ↔
      ¬ ∀ q ∈ ps.zip e.parents, q.1.creator = e.creator ↔ e.selfParent = some q.2 := by
    simp [Event.isSelfParent]
  have hseq : (decide (e.seq ≤ 1) != e.selfParent.isNone) = true ↔
      ¬ (e.seq ≤ 1 ↔ e.selfParent = none) := by
    cases e.selfParent <;> simp
  simp only [validate, hself, hseq]
  split_ifs with h₁ h₂ h₃ h₄ h₅
  · exact iff_of_false (by simp) fun h => h₁ h.1
  · exact iff_of_false (by simp) fun h => h₂ h.2.1
  · exact ⟨fun h => ⟨not_not.mp h₁, not_not.mp h₂, h₃, h₄, h₅, h⟩, fun h => h.2.2.2.2.2⟩
  · exact iff_of_false (by simp) fun h => h₅ h.2.2.2.2.1
  · exact iff_of_false (by simp) fun h => h₄ h.2.2.2.1
  · exact iff_of_false (by simp) fun h => h₃ h.2.2.1

section Dag

variable {getEvent : GetEvent} {maxParents : ℕ} {id : EventID} {e p : Event}

lemma parents_eventDag (h : getEvent id = some e) : (eventDag getEvent).parents id = e.parents := by
  simp [eventDag, h]

lemma creator_eventDag (h : getEvent id = some e) : (eventDag getEvent).creator id = e.creator := by
  simp [eventDag, h]

lemma seq_eventDag (h : getEvent id = some e) : (eventDag getEvent).seq id = e.seq := by
  simp [eventDag, h]

lemma selfParent_eventDag (h : getEvent id = some e) :
    (eventDag getEvent).selfParent id = e.selfParent := by
  simp [eventDag, h]

namespace Checked

variable (h : Checked maxParents getEvent e)
include h

lemma limits : Basiccheck.checkLimits maxParents e = none :=
  (Option.or_eq_none_iff.mp h.basic).1

lemma inited : Basiccheck.checkInited e = none :=
  (Option.or_eq_none_iff.mp h.basic).2

lemma seq_pos : 0 < e.seq := (Basiccheck.checkInited_eq_none.mp h.inited).1

lemma seq_lt : e.seq < Basiccheck.maxIndex := (Basiccheck.checkLimits_eq_none.mp h.limits).2.1

lemma lamport_lt : e.lamport < Basiccheck.maxIndex :=
  (Basiccheck.checkLimits_eq_none.mp h.limits).2.2.2.2

lemma selfParent_isSome (hseq : 1 < e.seq) : ∃ id, e.selfParent = some id := by
  have hne := (Basiccheck.checkInited_eq_none.mp h.inited).2.2.2.2.2 hseq
  obtain ⟨id, ids, hids⟩ := List.exists_cons_of_ne_nil hne
  exact ⟨id, by rw [Event.selfParent, if_neg (by omega), hids]; rfl⟩

/-- The checks link an event to the one before it. -/
lemma selfParent_spec (hid : e.selfParent = some id) :
    ∃ p, getEvent id = some p ∧ p.hash = id ∧ p.creator = e.creator ∧
      e.seq = (p.seq + 1) % 2 ^ 32 ∧ p.claimedTime < e.claimedTime := by
  obtain ⟨ps, hps, hval⟩ := h.parents
  obtain ⟨-, -, -, hself, -, hval⟩ := Parentscheck.validate_eq_none.mp hval
  obtain ⟨ids, hids⟩ : ∃ ids, e.parents = id :: ids := by
    unfold Event.selfParent at hid
    split_ifs at hid
    exact List.head?_eq_some_iff.mp hid
  rw [hids] at hps hself
  cases ps with
  | nil => simp at hps
  | cons p ps =>
    obtain ⟨hp, hseq, htime⟩ := (Parentscheck.checkSelfParent_eq_none hid).mp hval
    have hcreator := (hself (p, id) (by simp)).mpr hid
    exact ⟨p, (List.cons.inj hps).1, hp, hcreator, hseq, htime⟩

end Checked

/-- A set of checked events closed under parents. -/
structure CheckedSet (maxParents : ℕ) (getEvent : GetEvent) (D : Set EventID) : Prop where
  checked : ∀ id ∈ D, ∃ e, e.hash = id ∧ Checked maxParents getEvent e
  parents_mem : ∀ id ∈ D, ∀ e, getEvent id = some e → ∀ p ∈ e.parents, p ∈ D

lemma foldl_max_lamport (ps : List Event) (hbound : ∀ p ∈ ps, p.lamport < Basiccheck.maxIndex) :
    (∀ p ∈ ps, p.lamport ≤ ps.foldl (fun m p => max m p.lamport) 0) ∧
      ps.foldl (fun m p => max m p.lamport) 0 < Basiccheck.maxIndex := by
  suffices hgo : ∀ m < Basiccheck.maxIndex, m ≤ ps.foldl (fun m p => max m p.lamport) m ∧
      (∀ p ∈ ps, p.lamport ≤ ps.foldl (fun m p => max m p.lamport) m) ∧
      ps.foldl (fun m p => max m p.lamport) m < Basiccheck.maxIndex from
    (hgo 0 (by decide)).2
  induction ps with
  | nil => exact fun m hm => ⟨le_rfl, by simp, hm⟩
  | cons q ps ih =>
    intro m hm
    have hq := hbound q (by simp)
    obtain ⟨hge, hall, hlt⟩ := ih (fun p hp => hbound p (by simp [hp])) (max m q.lamport) (by omega)
    refine ⟨by rw [List.foldl_cons]; omega, ?_, hlt⟩
    intro p hp
    rw [List.foldl_cons]
    rcases List.mem_cons.mp hp with rfl | hp
    · omega
    · exact hall p hp

namespace CheckedSet

variable {D : Set EventID} (h : CheckedSet maxParents getEvent D)
include h

lemma exists_event (hid : id ∈ D) :
    ∃ e, getEvent id = some e ∧ e.hash = id ∧ Checked maxParents getEvent e := by
  obtain ⟨e, rfl, he⟩ := h.checked id hid
  exact ⟨e, he.stored, rfl, he⟩

lemma selfParent_seq (hid : id ∈ D) (he : getEvent id = some e) {q : EventID}
    (hq : e.selfParent = some q) (hp : getEvent q = some p) :
    p.creator = e.creator ∧ e.seq = p.seq + 1 := by
  obtain ⟨e', he', -, hch⟩ := h.exists_event hid
  obtain rfl : e = e' := Option.some.inj (he.symm.trans he')
  obtain ⟨p', hp', -, hc, hs, -⟩ := hch.selfParent_spec hq
  obtain rfl : p = p' := Option.some.inj (hp.symm.trans hp')
  obtain ⟨p'', hp'', -, hchp⟩ :=
    h.exists_event (h.parents_mem id hid e he q (Event.selfParent_mem hq))
  obtain rfl : p = p'' := Option.some.inj (hp.symm.trans hp'')
  have hlt := hchp.seq_lt
  unfold Basiccheck.maxIndex at hlt
  exact ⟨hc, by omega⟩

/-- Lamport times grow from parents to children. -/
lemma lamport_lt (hid : id ∈ D) (he : getEvent id = some e) {q : EventID} (hq : q ∈ e.parents)
    (hp : getEvent q = some p) : p.lamport < e.lamport := by
  obtain ⟨e', he', -, hch⟩ := h.exists_event hid
  obtain rfl : e = e' := Option.some.inj (he.symm.trans he')
  obtain ⟨ps, hps, hval⟩ := hch.parents
  obtain ⟨-, hlamport, -⟩ := Parentscheck.validate_eq_none.mp hval
  have hbound : ∀ p ∈ ps, p.lamport < Basiccheck.maxIndex := by
    intro p hmem
    obtain ⟨q, hq, hqp⟩ := List.mem_map.mp (hps ▸ List.mem_map_of_mem (f := some) hmem)
    obtain ⟨p', hp', -, hchp⟩ := h.exists_event (h.parents_mem id hid e he q hq)
    obtain rfl : p = p' := Option.some.inj (hqp.symm.trans hp')
    exact hchp.lamport_lt
  have hmem : p ∈ ps := by
    obtain ⟨p', hmem, hp'⟩ := List.mem_map.mp (hps ▸ List.mem_map_of_mem (f := getEvent) hq)
    rwa [Option.some.inj (hp.symm.trans hp'.symm)]
  obtain ⟨hle, hlt⟩ := foldl_max_lamport ps hbound
  have := hle p hmem
  unfold Basiccheck.maxIndex at hlt
  omega

lemma insert_event (he : Checked maxParents getEvent e) (hp : ∀ p ∈ e.parents, p ∈ D) :
    CheckedSet maxParents getEvent (insert e.hash D) where
  checked := by
    rintro id (rfl | hid)
    · exact ⟨e, rfl, he⟩
    · exact h.checked id hid
  parents_mem := by
    rintro id (rfl | hid) e' he' p hp'
    · obtain rfl : e = e' := Option.some.inj (he.stored.symm.trans he')
      exact Set.mem_insert_of_mem _ (hp p hp')
    · exact Set.mem_insert_of_mem _ (h.parents_mem id hid e' he' p hp')

/-- Checked events obey the laws of self-chained nodes. -/
theorem valid : (eventDag getEvent).Valid D where
  parents_mem x hx y hy := by
    obtain ⟨e, he, -, -⟩ := h.exists_event hx
    rw [parents_eventDag he] at hy
    exact h.parents_mem x hx e he y hy
  selfParent_mem x hx y hy := by
    obtain ⟨e, he, -, -⟩ := h.exists_event hx
    rw [selfParent_eventDag he] at hy
    rw [parents_eventDag he]
    exact Event.selfParent_mem hy
  selfParent_creator x hx y hy := by
    obtain ⟨e, he, -, hch⟩ := h.exists_event hx
    rw [selfParent_eventDag he] at hy
    obtain ⟨p, hp, -⟩ := hch.selfParent_spec hy
    rw [creator_eventDag he, creator_eventDag hp]
    exact (h.selfParent_seq hx he hy hp).1
  selfParent_seq x hx y hy := by
    obtain ⟨e, he, -, hch⟩ := h.exists_event hx
    rw [selfParent_eventDag he] at hy
    obtain ⟨p, hp, -⟩ := hch.selfParent_spec hy
    rw [seq_eventDag he, seq_eventDag hp]
    exact (h.selfParent_seq hx he hy hp).2
  selfParent_isSome x hx hseq := by
    obtain ⟨e, he, -, hch⟩ := h.exists_event hx
    rw [seq_eventDag he] at hseq
    obtain ⟨q, hq⟩ := hch.selfParent_isSome hseq
    rw [selfParent_eventDag he, hq]
    rfl
  seq_pos x hx := by
    obtain ⟨e, he, -, hch⟩ := h.exists_event hx
    rw [seq_eventDag he]
    exact hch.seq_pos

end CheckedSet

end Dag

end Lachesis
