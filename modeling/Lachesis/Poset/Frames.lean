import Lachesis.Poset.ElectionSafety
import Lachesis.Poset.Poset
import Lachesis.Vector.ForklessCause
import Lachesis.Vector.Merged

/-!
# Frames of the graph

Whether an event is accepted depends on the event and its ancestors, not on the node or on the order
in which events came to it: `verdict` is the result of `ProcessEvent` as a function of the graph.
The accepted roots and the relation of forkless cause between them form the graph that elections are
held on. If the forking validators hold less than a quorum intersection, it is one on which elections
agree.
-/

namespace Lachesis

open Lachesis.Core

/-- The events of an epoch. -/
abbrev Config.events (cfg : Config) (es : EpochState) : GetEvent := cfg.input es.epochN

/-- The graph of the events of an epoch. -/
abbrev Config.dag (cfg : Config) (es : EpochState) : EventDag :=
  eventDag (cfg.events es)

/-! ### The verdict on an event -/

/-- The frame that a stored event claims. -/
def frameOf (getEvent : GetEvent) (id : EventID) : ℕ :=
  ((getEvent id).map (·.frame)).getD 0

/-- Whether a stored event claims to be a root. -/
def isRootOf (getEvent : GetEvent) (id : EventID) : Bool :=
  (getEvent id).any (·.isRoot)

/-- The slot that a stored event claims. -/
def slotOf (getEvent : GetEvent) (id : EventID) : Slot :=
  ⟨frameOf getEvent id, (eventDag getEvent).creator id⟩

/-- The frame of the self-parent, zero without one. -/
def frameBefore (getEvent : GetEvent) (e : Event) : ℕ :=
  (e.selfParent.map (frameOf getEvent)).getD 0

/-- `b` is a root of the frame `f` by which `x` is forkless caused. -/
structure CausedBy (V : Validators) (getEvent : GetEvent) (x : EventID) (f : ℕ)
    (b : EventID) : Prop where
  root : isRootOf getEvent b = true
  frame : frameOf getEvent b = f
  caused : ForklessCaused V (eventDag getEvent) x b

open Classical in
/-- `x` is forkless caused by roots of the frame `f` of a quorum of the validators. -/
def CausedByQuorumOn (V : Validators) (getEvent : GetEvent) (x : EventID) (f : ℕ) : Prop :=
  V.quorum.toNat ≤ weight V.stakeOf (V.members.filter fun v =>
    ∃ b, CausedBy V getEvent x f b ∧ (eventDag getEvent).creator b = v)

open Classical in
/-- The frame that `calcFrameIdx` checks the claimed one against, and whether the event is a root. -/
noncomputable def graphFrame (V : Validators) (getEvent : GetEvent) (e : Event) : ℕ × Bool :=
  if e.parents.isEmpty then (1, true)
  else if !e.isRoot then (frameBefore getEvent e, false)
  else (frameBefore getEvent e + 1, decide (e.frame = frameBefore getEvent e + 1 ∧
    (e.frame ≤ 1 ∨ CausedByQuorumOn V getEvent e.hash (e.frame - 1))))

/-- The self-parent of the event has seen a parent's creator fork. -/
def LinksCheater (getEvent : GetEvent) (e : Event) : Prop :=
  ∃ q, e.selfParent = some q ∧
    ∃ p ∈ e.parents, (eventDag getEvent).SeesFork q ((eventDag getEvent).creator p)

/-- The result of the checks made after an event was added to the index. -/
noncomputable def addedVerdict (cfg : Config) (es : EpochState) (e : Event) : Option ProcessErr :=
  let getEvent := cfg.events es
  let V := es.validators
  if e.isRoot ≠ (graphFrame V getEvent e).2 then some .wrongIsRoot
  else if e.frame ≠ (graphFrame V getEvent e).1 then some .wrongFrame
  else if .ok e.medianTime ≠ graphMedianTime V (eventDag getEvent) (claimedTime getEvent)
      es.prevEpoch.time e.hash then some .wrongMedianTime
  else none

open Classical in
/-- The result of `checkAndSaveEvent` on an event whose parents were accepted. -/
noncomputable def saveVerdict (cfg : Config) (es : EpochState) (e : Event) : Option ProcessErr :=
  if e.seq ≤ 1 ∧ e.prevEpochHash ≠ cfg.genesisHash es.prevEpoch then some .wrongEpochHash
  else if 1 < e.seq ∧ e.prevEpochHash ≠ 0 then some .nonZeroEpochHash
  else if LinksCheater (cfg.events es) e then some .cheatersObserved
  else addedVerdict cfg es e

/-- The result of `ProcessEvent` on an event whose parents were accepted. -/
noncomputable def verdict (cfg : Config) (es : EpochState) (e : Event) : Option ProcessErr :=
  match Epochcheck.validate es.validators es.epochN e with
  | some err => some (.epochcheck err)
  | none => saveVerdict cfg es e

section Verdict

variable {cfg : Config} {es : EpochState} {e : Event} {getEvent : GetEvent}
variable {id : EventID}

lemma frameOf_eq (h : getEvent id = some e) : frameOf getEvent id = e.frame := by
  simp [frameOf, h]

lemma isRootOf_eq (h : getEvent id = some e) : isRootOf getEvent id = e.isRoot := by
  simp [isRootOf, h]

lemma Epochcheck.validate_eq_none {V : Validators} {epoch : ℕ} :
    Epochcheck.validate V epoch e = none ↔ e.epoch = epoch ∧ e.creator ∈ V.members := by
  simp only [Epochcheck.validate, Validators.existsId, Validators.mem_members]
  split_ifs with h₁ h₂ <;> simp_all

/-- What holds of the fields of an accepted event. -/
structure Accepted (cfg : Config) (es : EpochState) (e : Event) : Prop where
  epoch : e.epoch = es.epochN
  creator_mem : e.creator ∈ es.validators.members
  /-- An event without parents is a root of the first frame. -/
  initial : e.parents = [] → e.frame = 1 ∧ e.isRoot = true
  /-- Only a root moves to the next frame, -/
  frame : e.parents ≠ [] →
    e.frame = frameBefore (cfg.events es) e + if e.isRoot then 1 else 0
  /-- and only with a quorum of roots behind it. -/
  quorum : e.isRoot = true → 1 < e.frame →
    CausedByQuorumOn es.validators (cfg.events es) e.hash (e.frame - 1)

lemma accepted_of_verdict (h : verdict cfg es e = none) : Accepted cfg es e := by
  simp only [verdict] at h
  split at h
  · cases h
  rename_i hepoch
  obtain ⟨hepoch, hcreator⟩ := Epochcheck.validate_eq_none.mp hepoch
  simp only [saveVerdict, addedVerdict] at h
  split_ifs at h with h₁ h₂ h₃ h₄ h₅ h₆
  rw [not_not] at h₄ h₅
  refine ⟨hepoch, hcreator, fun hp => ?_, fun hp => ?_, fun hroot hframe => ?_⟩
  · rw [graphFrame, if_pos (by simp [hp])] at h₄ h₅
    exact ⟨h₅, h₄⟩
  · rw [graphFrame, if_neg (by simp [hp])] at h₅
    rw [h₅]
    cases e.isRoot <;> rfl
  · have hp : e.parents ≠ [] := by
      intro hp
      rw [graphFrame, if_pos (by simp [hp])] at h₅
      simp only at h₅
      omega
    rw [graphFrame, if_neg (by simp [hp]), if_neg (by simp [hroot]), hroot] at h₄
    simp only [eq_comm (a := true), decide_eq_true_eq] at h₄
    exact h₄.2.resolve_left (by omega)

end Verdict

/-! ### Valid events -/

/-- The events of `D` that are accepted with all their ancestors. -/
def validEvents (cfg : Config) (es : EpochState) (D : Set EventID) : Set EventID :=
  {x | ∀ y, (cfg.dag es).Sees x y → y ∈ D ∧
    ∃ e, e.hash = y ∧ Checked cfg.maxParents (cfg.events es) e ∧ verdict cfg es e = none}

section Valid

variable {cfg : Config} {es : EpochState} {D : Set EventID} {x y : EventID}

lemma validEvents_subset : validEvents cfg es D ⊆ D := fun x hx => (hx x (.refl x)).1

lemma exists_of_mem_validEvents (hx : x ∈ validEvents cfg es D) :
    ∃ e, cfg.events es x = some e ∧ e.hash = x ∧
      Checked cfg.maxParents (cfg.events es) e ∧ Accepted cfg es e := by
  obtain ⟨-, e, rfl, hchecked, hverdict⟩ := hx x (.refl x)
  exact ⟨e, hchecked.stored, rfl, hchecked, accepted_of_verdict hverdict⟩

lemma sees_mem_validEvents (hx : x ∈ validEvents cfg es D)
    (hxy : (cfg.dag es).Sees x y) : y ∈ validEvents cfg es D :=
  fun z hz => hx z (hxy.trans hz)

lemma checkedSet_validEvents (cfg : Config) (es : EpochState) (D : Set EventID) :
    CheckedSet cfg.maxParents (cfg.events es) (validEvents cfg es D) where
  checked x hx := by
    obtain ⟨-, e, rfl, hchecked, -⟩ := hx x (.refl x)
    exact ⟨e, rfl, hchecked⟩
  parents_mem x hx e he p hp :=
    sees_mem_validEvents hx (.of_mem_parents (by rwa [parents_eventDag he]))

lemma mem_validEvents {e : Event} (he : Checked cfg.maxParents (cfg.events es) e)
    (hverdict : verdict cfg es e = none) (hD : e.hash ∈ D)
    (hp : ∀ p ∈ e.parents, p ∈ validEvents cfg es D) : e.hash ∈ validEvents cfg es D := by
  intro y hy
  rcases ForkDag.sees_iff.mp hy with rfl | ⟨p, hmem, hpy⟩
  · exact ⟨hD, e, rfl, he, hverdict⟩
  · rw [parents_eventDag he.stored] at hmem
    exact hp p hmem y hpy

variable (hx : x ∈ validEvents cfg es D)
include hx

lemma epoch_of_mem_validEvents : EventID.epoch x = es.epochN := by
  obtain ⟨e, -, rfl, hchecked, haccepted⟩ := exists_of_mem_validEvents hx
  have hlt := (Basiccheck.checkLimits_eq_none.mp hchecked.limits).2.2.1
  unfold Basiccheck.maxIndex at hlt
  rw [Event.epoch_hash (by omega), haccepted.epoch]

/-- Frames do not decrease along a chain, and a root is above its self-parent. -/
lemma frameOf_selfParent
    (hxy : (cfg.dag es).selfParent x = some y) :
    frameOf (cfg.events es) x = frameOf (cfg.events es) y +
      if isRootOf (cfg.events es) x then 1 else 0 := by
  obtain ⟨e, he, -, -, haccepted⟩ := exists_of_mem_validEvents hx
  rw [selfParent_eventDag he] at hxy
  have hp : e.parents ≠ [] := List.ne_nil_of_mem (Event.selfParent_mem hxy)
  rw [frameOf_eq he, isRootOf_eq he, haccepted.frame hp, frameBefore, hxy]
  rfl

lemma frameOf_mono (hxy : (cfg.dag es).SelfSees x y) :
    frameOf (cfg.events es) y ≤ frameOf (cfg.events es) x := by
  have hvalid := (checkedSet_validEvents cfg es D).valid
  induction hxy with
  | refl => exact le_rfl
  | tail hxz hzy ih =>
    have hz := hvalid.sees_mem hx (hvalid.selfSees_sees hx hxz)
    rw [frameOf_selfParent hz hzy] at ih
    omega

lemma frameOf_lt_of_selfSees
    (hroot : isRootOf (cfg.events es) x = true) (hne : x ≠ y)
    (hxy : (cfg.dag es).SelfSees x y) :
    frameOf (cfg.events es) y < frameOf (cfg.events es) x := by
  have hvalid := (checkedSet_validEvents cfg es D).valid
  rcases Relation.ReflTransGen.cases_head hxy with heq | ⟨z, hxz, hzy⟩
  · exact absurd heq hne
  · have hz := hvalid.sees_mem hx
      (.of_mem_parents (hvalid.selfParent_mem x hx z hxz))
    have hle := frameOf_mono hz hzy
    rw [frameOf_selfParent hx hxz, hroot, if_pos rfl]
    omega

end Valid

/-- The events that a node has accepted: valid, finitely many and closed under parents. -/
structure Known (cfg : Config) (es : EpochState) (D : Set EventID) (A : Finset EventID) : Prop where
  valid : ∀ x ∈ A, x ∈ validEvents cfg es D
  parents_mem : ∀ x ∈ A, ∀ y ∈ (cfg.dag es).parents x, y ∈ A

namespace Known

variable {cfg : Config} {es : EpochState} {D : Set EventID} {A : Finset EventID} {x y : EventID}

lemma empty : Known cfg es D ∅ := ⟨by simp, by simp⟩

lemma checkedSet (h : Known cfg es D A) : CheckedSet cfg.maxParents (cfg.events es) A where
  checked x hx := (checkedSet_validEvents cfg es D).checked x (h.valid x hx)
  parents_mem x hx e he p hp := h.parents_mem x hx p (by rwa [parents_eventDag he])

lemma sees_mem (h : Known cfg es D A) (hx : x ∈ A) (hxy : (cfg.dag es).Sees x y) : y ∈ A :=
  h.checkedSet.valid.sees_mem hx hxy

lemma insert_event (h : Known cfg es D A) {e : Event}
    (he : Checked cfg.maxParents (cfg.events es) e) (hverdict : verdict cfg es e = none)
    (hD : e.hash ∈ D) (hp : ∀ p ∈ e.parents, p ∈ A) : Known cfg es D (insert e.hash A) where
  valid x hx := by
    rcases Finset.mem_insert.mp hx with rfl | hx
    · exact mem_validEvents he hverdict hD fun p hmem => h.valid p (hp p hmem)
    · exact h.valid x hx
  parents_mem x hx y hy := by
    rcases Finset.mem_insert.mp hx with rfl | hx
    · rw [parents_eventDag he.stored] at hy
      exact Finset.mem_insert_of_mem (hp y hy)
    · exact Finset.mem_insert_of_mem (h.parents_mem x hx y hy)

end Known

/-! ### The graph of roots -/

open Classical in
/-- The valid roots and which of them forkless causes which. -/
noncomputable def rootGraph (cfg : Config) (es : EpochState) (D : Set EventID) : RootGraph where
  roots := {x | x ∈ validEvents cfg es D ∧ isRootOf (cfg.events es) x = true}
  slot := slotOf (cfg.events es)
  observe a b := decide (ForklessCaused es.validators (cfg.dag es) a b)

open Classical in
/-- The stakes fit, and the validators that fork in `D` hold less than a quorum intersection. -/
structure Safe (cfg : Config) (es : EpochState) (D : Set EventID) : Prop where
  total_lt : es.validators.total < 2 ^ 63
  forks_lt : weight es.validators.stakeOf (es.validators.members.filter ((cfg.dag es).Forks D)) +
    es.validators.total < 2 * es.validators.quorum.toNat

section RootGraph

variable {cfg : Config} {es : EpochState} {D : Set EventID} {a b : EventID}

lemma observe_iff : (rootGraph cfg es D).observe a b = true ↔
    ForklessCaused es.validators (cfg.dag es) a b := by
  simp [rootGraph]

/-- Both sides of a fork never cause roots. -/
lemma Safe.selfSees_of_caused (h : Safe cfg es D) {a' b' : EventID}
    (ha : a ∈ validEvents cfg es D) (ha' : a' ∈ validEvents cfg es D)
    (hc : (cfg.dag es).creator b = (cfg.dag es).creator b')
    (hab : ForklessCaused es.validators (cfg.dag es) a b)
    (hab' : ForklessCaused es.validators (cfg.dag es) a' b') :
    (cfg.dag es).SelfSees b b' ∨ (cfg.dag es).SelfSees b' b := by
  classical
  by_contra hno
  push Not at hno
  have htotal : es.validators.total < 2 ^ 64 := h.total_lt.trans (by decide)
  have hle := (checkedSet_validEvents cfg es D).valid.two_mul_le_weight_forks ha ha' hc hno.1 hno.2
    ((forklessCaused_iff htotal).mp hab) ((forklessCaused_iff htotal).mp hab')
  have hmono : weight es.validators.stakeOf (es.validators.members.filter
        ((cfg.dag es).Forks (validEvents cfg es D))) ≤
      weight es.validators.stakeOf (es.validators.members.filter ((cfg.dag es).Forks D)) := by
    refine weight_mono _ fun v hv => ?_
    obtain ⟨hv, x, hx, y, hy, hxy⟩ := Finset.mem_filter.mp hv
    exact Finset.mem_filter.mpr ⟨hv, x, validEvents_subset hx, y, validEvents_subset hy, hxy⟩
  have hlt := h.forks_lt
  have hforks := hle.trans (Nat.add_le_add_right hmono _)
  unfold Validators.total at hlt
  omega

/-- Elections can be held on the valid roots. -/
theorem Safe.electable (h : Safe cfg es D) {f : ℕ} (hf : 0 < f) :
    (rootGraph cfg es D).Electable es.validators f where
  total_lt := h.total_lt
  validator_mem r hr := by
    obtain ⟨e, he, -, -, haccepted⟩ := exists_of_mem_validEvents hr.1
    simp only [rootGraph, slotOf, creator_eventDag he]
    exact haccepted.creator_mem
  unique r hr r' hr' b hb b' hb' hrb hrb' hslot := by
    obtain ⟨hframe, hcreator⟩ := Slot.mk.inj hslot
    by_contra hne
    rcases h.selfSees_of_caused hr.1 hr'.1 hcreator (observe_iff.mp hrb) (observe_iff.mp hrb') with
      hsees | hsees
    · have := frameOf_lt_of_selfSees hb.1 hb.2 hne hsees
      omega
    · have := frameOf_lt_of_selfSees hb'.1 hb'.2 (Ne.symm hne) hsees
      omega
  quorum r hr hlt := by
    classical
    obtain ⟨e, he, hhash, -, haccepted⟩ := exists_of_mem_validEvents hr.1
    have hframe : frameOf (cfg.events es) r = e.frame := frameOf_eq he
    have hlt' : f < e.frame := hframe ▸ hlt
    have hroot : e.isRoot = true := isRootOf_eq he ▸ hr.2
    refine le_trans (haccepted.quorum hroot (by omega)) (weight_mono _ fun v hv => ?_)
    obtain ⟨hv, b, hb, hbv⟩ := Finset.mem_filter.mp hv
    have hsees := sees_of_quorum_le hb.caused.2
    rw [hhash] at hsees
    refine Finset.mem_filter.mpr ⟨hv, hv, b, ⟨sees_mem_validEvents hr.1 hsees, hb.root⟩, ?_, hbv,
      observe_iff.mpr (hhash ▸ hb.caused)⟩
    have hbf := hb.frame
    simp only [rootGraph, slotOf]
    omega

end RootGraph

end Lachesis
