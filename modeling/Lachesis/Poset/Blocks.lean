import Lachesis.Poset.Decisions
import Lachesis.Vector.Calls

/-!
# Blocks

A decided frame makes a block of what its atropos confirms and the application allows, without the
events of those whom the atropos sees forking. Over the decided frames of an epoch no event gets into
two blocks, and no event comes before an ancestor of it.
-/

namespace Lachesis

open Lachesis.Core

/-! ### Reading the clock of an atropos -/

/-- The clock of the atropos `a` was read from an index to which events of the epoch were added that
passed the checks. -/
def AtroposRead (cfg : Config) (es : EpochState) (a : EventID) (highest : ℕ → BranchSeq) : Prop :=
  ∃ (C : VecCaches) (calls : List IndexCall),
    Index.Legal cfg.maxParents es.validators (cfg.events es) (∅, ∅) calls ∧
    (∀ e, IndexCall.add e ∈ calls → e.epoch = es.epochN) ∧ a ∈ (Index.stored calls).1 ∧
    ∃ r vi, (do Index.run calls; Index.getHighestBeforeMerged a).run
        (Index.new es.validators .empty (cfg.events es) : Index C) = .ok (r, vi) ∧
      highest = (r.getD (.new 0)).get

/-- Events of the epoch `es` that passed the checks, with their ancestors. -/
structure Connected (cfg : Config) (es : EpochState) (D : Finset EventID) : Prop where
  checked : CheckedSet cfg.maxParents (cfg.events es) D
  epoch : ∀ x ∈ D, EventID.epoch x = es.epochN
  creator_mem : ∀ x ∈ D, (cfg.dag es).creator x ∈ es.validators.members

lemma Connected.checked_event {cfg : Config} {es : EpochState} {D : Finset EventID}
    (hD : Connected cfg es D) {e : Event} (he : cfg.events es e.hash = some e)
    (hmem : e.hash ∈ D) : 0 < e.lamport ∧ e.epoch = es.epochN := by
  obtain ⟨e', he', -, hchecked⟩ := hD.checked.exists_event hmem
  obtain rfl : e = e' := Option.some.inj (he.symm.trans he')
  have hlt := (Basiccheck.checkLimits_eq_none.mp hchecked.limits).2.2.1
  unfold Basiccheck.maxIndex at hlt
  rw [← hD.epoch _ hmem, Event.epoch_hash (by omega)]
  exact ⟨(Basiccheck.checkInited_eq_none.mp hchecked.inited).2.2.2.1, rfl⟩

variable {x : EventID} {calls : List IndexCall}

lemma Index.exists_add_of_mem_stored {s : Finset EventID × Finset EventID}
    (hx : x ∈ (calls.foldl IndexCall.events s).1 ∪ (calls.foldl IndexCall.events s).2) :
    x ∈ s.1 ∪ s.2 ∨ ∃ e, IndexCall.add e ∈ calls ∧ e.hash = x := by
  induction calls generalizing s with
  | nil => exact Or.inl hx
  | cons call calls ih =>
    rcases ih hx with hx | ⟨e, he, rfl⟩
    · cases call with
      | add e =>
        simp only [IndexCall.events, Finset.insert_union, Finset.mem_insert] at hx
        rcases hx with rfl | hx
        · exact Or.inr ⟨e, by simp, rfl⟩
        · exact Or.inl hx
      | flush => exact Or.inl (by simpa [IndexCall.events] using Or.inl hx)
      | dropNotFlushed => exact Or.inl (by simpa [IndexCall.events] using Or.inr hx)
      | forklessCause a b => exact Or.inl hx
      | getHighestBeforeMerged id => exact Or.inl hx
    · exact Or.inr ⟨e, by simp [he], rfl⟩

variable {getEvent : GetEvent}

lemma Index.checked_of_add {maxParents : ℕ} {V : Validators} {s : Finset EventID × Finset EventID}
    (h : Index.Legal maxParents V getEvent s calls) {e : Event} (he : IndexCall.add e ∈ calls) :
    Checked maxParents getEvent e := by
  induction calls generalizing s with
  | nil => simp at he
  | cons call calls ih =>
    rcases List.mem_cons.mp he with rfl | he
    · exact h.1.1
    · exact ih h.2 he

section Read

variable {cfg : Config} {es : EpochState} {a : EventID} {highest : ℕ → BranchSeq}

lemma AtroposRead.spec (h : AtroposRead cfg es a highest) :
    ∃ D, Connected cfg es D ∧ a ∈ D ∧ HighestOf cfg es a highest := by
  obtain ⟨C, calls, hlegal, hepoch, ha, r, vi, hrun, rfl⟩ := h
  obtain ⟨_, vi₁, hrun₁, hinv⟩ := Index.inv_run (C := C) hlegal
  refine ⟨(Index.stored calls).1, ⟨hinv.checked, fun x hx => ?_, fun x hx => ?_⟩, ha, ?_⟩
  · obtain ⟨e, he, rfl⟩ := (Index.exists_add_of_mem_stored
      (Finset.mem_union_left _ hx)).resolve_left (by simp)
    have hlt := (Basiccheck.checkLimits_eq_none.mp (Index.checked_of_add hlegal he).limits).2.2.1
    unfold Basiccheck.maxIndex at hlt
    rw [Event.epoch_hash (by omega), hepoch e he]
  · exact hinv.current.branches.creator_mem hx
  · rw [StateT.run_bind, hrun₁] at hrun
    obtain ⟨-, seqs, rfl, hobs⟩ := (Index.getHighestBeforeMerged_returns hinv ha).of_run hrun
    exact hobs

lemma exists_atroposRead (C : VecCaches)
    (hlegal : Index.Legal cfg.maxParents es.validators (cfg.events es) (∅, ∅) calls)
    (hepoch : ∀ e, IndexCall.add e ∈ calls → e.epoch = es.epochN) (ha : a ∈ (Index.stored calls).1) :
    ∃ highest, AtroposRead cfg es a highest := by
  obtain ⟨_, vi₁, hrun₁, hinv⟩ := Index.inv_run (C := C) hlegal
  obtain ⟨r, vi₂, hrun₂, -⟩ := Index.getHighestBeforeMerged_returns hinv ha
  exact ⟨_, C, calls, hlegal, hepoch, ha, r, vi₂, by rw [StateT.run_bind, hrun₁]; exact hrun₂, rfl⟩

end Read

/-! ### What a block is made of -/

/-- What the reports made so far leave behind: the bounds of the Lamport times, and some of the events
whose creators are not marked. -/
structure Confirming.Collects (V : Validators) (highest : ℕ → BranchSeq) (reported : List Event)
    (s : Confirming) : Prop where
  le_highest : ∀ e ∈ reported, e.lamport ≤ s.highestLamport
  lowest_le : ∀ e ∈ reported, s.lowestLamport ≤ e.lamport
  empty : reported = [] → s.highestLamport = 0 ∧ s.lowestLamport = 0
  attained : reported ≠ [] → (∃ e ∈ reported, e.lamport = s.highestLamport) ∧
    ∃ e ∈ reported, e.lamport = s.lowestLamport
  sublist : s.blockEvents.Sublist reported
  honest : ∀ e ∈ s.blockEvents, (highest (V.getIdx e.creator)).isForkDetected = false

section Block

variable {cfg : Config} {es : EpochState} {a : EventID} {highest : ℕ → BranchSeq}
variable {V : Validators}

lemma Confirming.Collects.report {reported : List Event} {s : Confirming}
    (hs : s.Collects V highest reported) (hreported : ∀ e ∈ reported, 0 < e.lamport) {e : Event}
    (hpos : 0 < e.lamport)
    (h : (highest (V.getIdx e.creator)).isForkDetected = true ∨
      e.seq ≤ (highest (V.getIdx e.creator)).seq) :
    ∃ s', onConfirmed cfg V highest e s = .ok s' ∧ s'.Collects V highest (reported ++ [e]) := by
  obtain ⟨s', hrun, hmax, hmin, hblock, -⟩ := onConfirmed_ok s h
  refine ⟨s', hrun, ?_⟩
  have hlow : s'.lowestLamport ≤ e.lamport ∧ (∀ e' ∈ reported, s'.lowestLamport ≤ e'.lamport) ∧
      (s'.lowestLamport = e.lamport ∨ reported ≠ [] ∧ s'.lowestLamport = s.lowestLamport) := by
    rw [hmin]
    by_cases hnil : reported = []
    · simp [hnil, (hs.empty hnil).2]
    · obtain ⟨e₀, he₀, heq⟩ := (hs.attained hnil).2
      have hpos₀ := hreported e₀ he₀
      split_ifs with hif
      · exact ⟨le_rfl, fun e' he' => by have := hs.lowest_le e' he'; omega, Or.inl rfl⟩
      · exact ⟨by omega, hs.lowest_le, Or.inr ⟨hnil, rfl⟩⟩
  have hhigh : ∀ e' ∈ reported, e'.lamport ≤ s'.highestLamport := fun e' he' =>
    hmax ▸ le_max_of_le_left (hs.le_highest e' he')
  refine ⟨?_, ?_, by simp, fun _ => ⟨?_, ?_⟩, ?_, ?_⟩
  · simp only [List.mem_append, List.mem_singleton]
    rintro e' (he' | rfl)
    · exact hhigh e' he'
    · exact hmax ▸ le_max_right _ _
  · simp only [List.mem_append, List.mem_singleton]
    rintro e' (he' | rfl)
    · exact hlow.2.1 e' he'
    · exact hlow.1
  · rcases le_total s.highestLamport e.lamport with hle | hle
    · exact ⟨e, by simp, by rw [hmax, max_eq_right hle]⟩
    · have hnil : reported ≠ [] := by
        intro hnil
        have := (hs.empty hnil).1
        omega
      obtain ⟨e₀, he₀, heq⟩ := (hs.attained hnil).1
      exact ⟨e₀, by simp [he₀], by rw [hmax, max_eq_left hle, heq]⟩
  · rcases hlow.2.2 with heq | ⟨hnil, heq⟩
    · exact ⟨e, by simp, heq.symm⟩
    · obtain ⟨e₀, he₀, heq₀⟩ := (hs.attained hnil).2
      exact ⟨e₀, by simp [he₀], heq₀.trans heq.symm⟩
  · rcases hblock with heq | ⟨heq, -⟩
    · exact heq ▸ hs.sublist.trans (List.sublist_append_left _ _)
    · exact heq ▸ hs.sublist.append (List.Sublist.refl _)
  · intro e' he'
    rcases hblock with heq | ⟨heq, hnot⟩
    · exact hs.honest e' (heq ▸ he')
    · rw [heq] at he'
      rcases List.mem_append.mp he' with he' | he'
      · exact hs.honest e' he'
      · rwa [List.mem_singleton.mp he']

end Block

namespace Chain

variable {cfg : Config} {es : EpochState} {a : EventID} {highest : ℕ → BranchSeq}
variable {c c₁ c' : Chain} {f fuel : ℕ} {D : Finset EventID} {block : Block}
variable {cheaters : List StakerID}

open Classical in
/-- What `confirmBlock` does: the events of `reported` are those that the atropos confirms, and the
block and the record of the frame are made of what was collected from them. -/
structure BlockConfirmed (cfg : Config) (es : EpochState) (f : ℕ) (a : EventID)
    (highest : ℕ → BranchSeq) (c : Chain) (block : Block) (c' : Chain) (reported : List Event)
    (s : Confirming) : Prop where
  collects : s.Collects es.validators highest reported
  nodup : (reported.map Event.hash).Nodup
  reported_iff : ∀ e, e ∈ reported ↔ cfg.events es e.hash = some e ∧
    (cfg.dag es).Sees a e.hash ∧ c.confirmedOn e.hash = 0
  marks : ∀ x, c'.confirmedOn x =
    if (cfg.dag es).Sees a x ∧ c.confirmedOn x = 0 then f else c.confirmedOn x
  events : block.events = fareOrdering s.blockEvents
  frameInfo : ∃ header time, cfg.events es a = some header ∧
    c.frameConsensusTime (f - 1) = .ok time ∧
    c'.main.frameInfos = c.main.frameInfos.insert ⟨es.epochN, f⟩
      (fareTimestamps time header.medianTime s.highestLamport s.lowestLamport)

variable {time : Timestamp}

section

variable (hD : Connected cfg es D) (ha : a ∈ D) (hhighest : HighestOf cfg es a highest) (hf : f ≠ 0)
  (hclosed : ∀ x ∈ D, c.confirmedOn x ≠ 0 → ∀ p ∈ (cfg.dag es).parents x, c.confirmedOn p ≠ 0)
include hD ha hhighest hf hclosed

open Classical in
/-- The walk reports each event below the atropos once. -/
lemma confirmEvents_collects :
    ∃ fuel marks s reported, confirmEvents (cfg.events es) fuel f a
        (onConfirmed cfg es.validators highest)
        (c.main.confirmedEvent, ⟨0, 0, [], c.calls⟩) = .ok (marks, s) ∧
      s.Collects es.validators highest reported ∧ (reported.map Event.hash).Nodup ∧
      (∀ e, e ∈ reported ↔ cfg.events es e.hash = some e ∧
        (cfg.dag es).Sees a e.hash ∧ c.confirmedOn e.hash = 0) ∧
      ∀ x, marks.confirmedOn x =
        if (cfg.dag es).Sees a x ∧ c.confirmedOn x = 0 then f
        else c.confirmedOn x := by
  obtain ⟨marks, s, reported, hwalk, ⟨-, hcollects⟩, hrest⟩ :=
    confirmEvents_ok (onConfirmed cfg es.validators highest) hD.checked.storedSet
      (fun reported s => (∀ e ∈ reported, 0 < e.lamport) ∧
        s.Collects es.validators highest reported) hclosed hf ha le_rfl
      (s := ⟨0, 0, [], c.calls⟩)
      ⟨by simp, by simp, by simp, fun _ => ⟨rfl, rfl⟩, by simp, List.Sublist.refl _, by simp⟩
      (by
        rintro done e t he hsees - ⟨hpos, ht⟩
        have hmem := hD.checked.valid.sees_mem ha hsees
        have hcreator := hD.creator_mem _ hmem
        rw [creator_eventDag he] at hcreator
        obtain ⟨hlamport, -⟩ := hD.checked_event he hmem
        obtain ⟨t', hrun, ht'⟩ := ht.report hpos hlamport
          (hhighest.consistent hD.checked ha he hsees hcreator)
        refine ⟨t', hrun, ?_, ht'⟩
        simp only [List.mem_append, List.mem_singleton]
        rintro e' (he' | rfl)
        · exact hpos e' he'
        · exact hlamport)
  exact ⟨_, marks, s, reported, hwalk, hcollects, hrest⟩

/-- A block is made of the events that were reported for it. -/
lemma confirmBlock_spec (hes : c.epochState = es)
    (hrun : c.confirmBlock cfg fuel highest f a = .ok (block, cheaters, c')) :
    c'.epochState = es ∧ ∃ reported s, c.BlockConfirmed cfg es f a highest block c' reported s := by
  obtain ⟨_, marks, s, reported, hwalk, hcollects, hnodup, hreported, hmarks⟩ :=
    confirmEvents_collects hD ha hhighest hf hclosed
  subst hes
  unfold confirmBlock at hrun
  simp only [bind, bind_eq_ok_iff] at hrun
  obtain ⟨⟨marks', s'⟩, hwalk', time, htime, hrun⟩ := hrun
  obtain ⟨rfl, rfl⟩ := Prod.mk.inj (walk_unique hwalk' hwalk)
  split at hrun
  · cases hrun
  rename_i header hheader
  cases hrun
  exact ⟨rfl, reported, s', hcollects, hnodup, hreported, hmarks, rfl, header, time, hheader, htime,
    rfl⟩

lemma exists_confirmBlock (hes : c.epochState = es)
    (htime : c.frameConsensusTime (f - 1) = .ok time) :
    ∃ fuel block cheaters c' time', c.confirmBlock cfg fuel highest f a = .ok (block, cheaters, c') ∧
      c'.checkpoint = c.checkpoint ∧ c'.frameConsensusTime f = .ok time' := by
  obtain ⟨fuel, marks, s, -, hwalk, -⟩ := confirmEvents_collects hD ha hhighest hf hclosed
  obtain ⟨header, hheader, -⟩ := hD.checked.exists_event ha
  subst hes
  refine ⟨fuel, ?_⟩
  simp only [confirmBlock, hwalk, htime, hheader, bind, Except.bind, pure, Except.pure]
  refine ⟨_, _, _, (fareTimestamps time header.medianTime s.highestLamport
    s.lowestLamport).lastConsensusTime, rfl, rfl, ?_⟩
  simp only [frameConsensusTime, if_neg hf, Chain.frameInfo, frameInfo_insert, and_self, if_true]

end

/-- The frame `f` of the epoch `es` is decided with the atropos `a`: the clock of the atropos is read,
the block is confirmed and the frame finished, as in `onFrameDecided`. -/
structure FrameDecided (cfg : Config) (es : EpochState) (f : ℕ) (a : EventID) (c : Chain)
    (block : Block) (sealed : Bool) (c' : Chain) : Prop where
  run : ∃ fuel highest cheaters c₁, AtroposRead cfg es a highest ∧
    confirmBlock cfg fuel highest f a
      { c with checkpoint := { c.checkpoint with lastDecidedFrame := f } } =
        .ok (block, cheaters, c₁) ∧
    finishFrame cfg f a block cheaters c₁ = .ok (sealed, c')

/-- A run of decided frames of the epoch `es`, from its beginning: the atropoi with their blocks,
whether the last one sealed the epoch, and the chain after it. -/
inductive FramesDecided (cfg : Config) (es : EpochState) (c₀ : Chain) :
    List (EventID × Block) → Bool → Chain → Prop
  | start (epochState : c₀.epochState = es)
      (unmarked : ∀ x, EventID.epoch x = es.epochN → c₀.confirmedOn x = 0) :
      FramesDecided cfg es c₀ [] false c₀
  | next {ds : List (EventID × Block)} {c c' : Chain} {a : EventID} {block : Block} {sealed : Bool}
      (before : FramesDecided cfg es c₀ ds false c)
      (decided : FrameDecided cfg es (ds.length + 1) a c block sealed c') :
      FramesDecided cfg es c₀ (ds ++ [(a, block)]) sealed c'

lemma exists_frameDecided_iff {sealed : Bool} : (∃ block, FrameDecided cfg es f a c block sealed c') ↔
    ∃ fuel highest, AtroposRead cfg es a highest ∧
      c.onFrameDecided cfg fuel highest f a = .ok (sealed, c') := by
  constructor
  · rintro ⟨block, fuel, highest, cheaters, c₁, hread, hconfirm, hfinish⟩
    exact ⟨fuel, highest, hread, by rw [onFrameDecided, hconfirm]; exact hfinish⟩
  · rintro ⟨fuel, highest, hread, hrun⟩
    unfold onFrameDecided at hrun
    split at hrun
    · cases hrun
    · rename_i block cheaters c₁ hconfirm
      exact ⟨block, fuel, highest, cheaters, c₁, hread, hconfirm, hrun⟩

/-- The events of the epoch are marked with the first of the decided frames that sees them. -/
def MarkedBy (cfg : Config) (es : EpochState) (as : List EventID) (c : Chain) : Prop :=
  ∀ x, EventID.epoch x = es.epochN → c.confirmedOn x = firstFrame (cfg.dag es) (as.zipIdx 1) x

variable {as : List EventID}

lemma MarkedBy.closed (h : c.MarkedBy cfg es as) (hD : Connected cfg es D) (hx : x ∈ D)
    (hmark : c.confirmedOn x ≠ 0) {p : EventID}
    (hp : p ∈ (cfg.dag es).parents x) : c.confirmedOn p ≠ 0 := by
  rw [h x (hD.epoch x hx)] at hmark
  rw [h p (hD.epoch p (hD.checked.valid.sees_mem hx (.of_mem_parents hp)))]
  exact firstFrame_ne_zero_of_parent zipIdx_ne_zero hp hmark

/-- An atropos whose clock was read decides the next frame. -/
theorem exists_frameDecided (hes : c.epochState = es) (hmarked : c.MarkedBy cfg es as)
    (hread : AtroposRead cfg es a highest) (htime : c.frameConsensusTime as.length = .ok time) :
    ∃ block sealed c', FrameDecided cfg es (as.length + 1) a c block sealed c' := by
  obtain ⟨D, hD, ha, hhighest⟩ := hread.spec
  obtain ⟨fuel, block, cheaters, c₁, time', hconfirm, hcheckpoint, htime'⟩ := exists_confirmBlock
    (c := { c with checkpoint := { c.checkpoint with lastDecidedFrame := as.length + 1 } })
    hD ha hhighest (Nat.succ_ne_zero _)
    (fun x hx hmark p hp => hmarked.closed hD hx hmark hp) hes htime
  obtain ⟨sealed, c', hfinish⟩ := exists_finishFrame (c := c₁) cfg (as.length + 1) a block cheaters
    (by rw [hcheckpoint]; exact htime')
  exact ⟨block, sealed, c', fuel, highest, cheaters, c₁, hread, hconfirm, hfinish⟩

lemma FrameDecided.spec {sealed : Bool} (hes : c.epochState = es) (hmarked : c.MarkedBy cfg es as)
    (h : FrameDecided cfg es (as.length + 1) a c block sealed c') :
    (sealed = false → c'.epochState = es) ∧ c'.MarkedBy cfg es (as ++ [a]) ∧
      ∃ D highest reported s, Connected cfg es D ∧ a ∈ D ∧ HighestOf cfg es a highest ∧
        c.BlockConfirmed cfg es (as.length + 1) a highest block c' reported s := by
  obtain ⟨fuel, highest, cheaters, c₁, hread, hconfirm, hfinish⟩ := h.run
  obtain ⟨D, hD, ha, hhighest⟩ := hread.spec
  obtain ⟨hes₁, reported, s, hblock⟩ := confirmBlock_spec
    (c := { c with checkpoint := { c.checkpoint with lastDecidedFrame := as.length + 1 } })
    hD ha hhighest (Nat.succ_ne_zero _)
    (fun x hx hmark p hp => hmarked.closed hD hx hmark hp) hes hconfirm
  have hends := finishFrame_finishes hfinish
  have hmarks' : ∀ x, c'.confirmedOn x = c₁.confirmedOn x := fun x => by
    rw [confirmedOn, hends.confirmedEvent]
    rfl
  refine ⟨fun h => (hends.going h).1.trans hes₁, fun x hx => ?_, D, highest, reported, s, hD, ha, hhighest,
    hblock.collects, hblock.nodup, hblock.reported_iff, fun x => ?_, hblock.events, ?_⟩
  · classical
    have hc : c.confirmedOn x = _ := hmarked x hx
    rw [hmarks', hblock.marks, List.zipIdx_append, List.zipIdx_singleton,
      firstFrame_concat zipIdx_ne_zero, Nat.add_comm 1, ← hc]
    rfl
  · rw [hmarks', hblock.marks]
    rfl
  · rw [hends.frameInfos]
    exact hblock.frameInfo

end Chain

/-! ### The order of a block -/

/-- The Lamport time of a stored event. -/
def lamportOf (getEvent : GetEvent) (id : EventID) : ℕ :=
  ((getEvent id).map (·.lamport)).getD 0

/-- The order of the events of a block: by Lamport time, then by the bytes of the identifier. -/
def FareLt (getEvent : GetEvent) (x y : EventID) : Prop :=
  lamportOf getEvent x < lamportOf getEvent y ∨
    lamportOf getEvent x = lamportOf getEvent y ∧ x < y

lemma fareLe_iff {a b : Event} :
    fareLe a b = true ↔ a.lamport < b.lamport ∨ a.lamport = b.lamport ∧ a.hash ≤ b.hash := by
  unfold fareLe
  split_ifs with h
  · simp only [decide_eq_true_eq, h, false_and, or_false]
    omega
  · rw [not_not.mp h]
    simp

instance : Std.Total fun a b : Event => (fareLe a b : Prop) where
  total a b := by
    simp only [fareLe_iff]
    unfold EventID
    omega

instance : IsTrans Event fun a b => fareLe a b where
  trans a b c hab hbc := by
    rw [fareLe_iff] at hab hbc ⊢
    unfold EventID at hab hbc ⊢
    omega

lemma mem_fareOrdering {l : List Event} : x ∈ fareOrdering l ↔ ∃ e ∈ l, e.hash = x := by
  simp [fareOrdering, List.mem_insertionSort]

lemma fareOrdering_pairwise {l : List Event} (hnodup : (l.map Event.hash).Nodup)
    (hl : ∀ e ∈ l, getEvent e.hash = some e) : (fareOrdering l).Pairwise (FareLt getEvent) := by
  have hperm := List.perm_insertionSort (fun a b => (fareLe a b : Prop)) l
  have hne : (l.insertionSort fun a b => fareLe a b).Pairwise fun a b => a.hash ≠ b.hash :=
    List.pairwise_map.mp ((hperm.map Event.hash).nodup_iff.mpr hnodup)
  rw [fareOrdering, List.pairwise_map]
  refine ((List.pairwise_insertionSort (fun a b => (fareLe a b : Prop)) l).and hne).imp_of_mem ?_
  rintro a b ha hb ⟨hle, hne⟩
  have ha' := hl a (hperm.mem_iff.mp ha)
  have hb' := hl b (hperm.mem_iff.mp hb)
  simp only [FareLt, lamportOf, ha', hb', Option.map_some, Option.getD_some]
  exact (fareLe_iff.mp hle).imp_right fun h => ⟨h.1, lt_of_le_of_ne h.2 hne⟩

/-- Lamport times grow along the graph. -/
lemma CheckedSet.lamportOf_lt {maxParents : ℕ} {D : Set EventID}
    (h : CheckedSet maxParents getEvent D) {y : EventID} (hx : x ∈ D)
    (hxy : (eventDag getEvent).Sees x y) (hne : x ≠ y) :
    lamportOf getEvent y < lamportOf getEvent x := by
  rcases ForkDag.sees_iff.mp hxy with rfl | ⟨p, hp, hpy⟩
  · exact absurd rfl hne
  obtain ⟨e, he, -, -⟩ := h.exists_event hx
  rw [parents_eventDag he] at hp
  have hpD := h.parents_mem x hx e he p hp
  obtain ⟨d, hd, -, -⟩ := h.exists_event hpD
  obtain ⟨e', he', -, -⟩ := h.exists_event (h.valid.sees_mem hpD hpy)
  have h₁ := h.lamport_lt hx he hp hd
  have h₂ := h.lamport_le_of_sees hpD hpy hd he'
  simp only [lamportOf, he, he', Option.map_some, Option.getD_some]
  omega

/-! ### The blocks of an epoch -/

section Frames

variable {G : EventDag} {as : List EventID} {x : EventID} {n : ℕ}

/-- A frame that confirmed an event is the first one whose atropos sees it. -/
lemma firstFrame_zipIdx (h : firstFrame G (as.zipIdx 1) x = n + 1) :
    (∃ a, as[n]? = some a ∧ G.Sees a x) ∧ ∀ m a, as[m]? = some a → G.Sees a x → n ≤ m := by
  classical
  induction as using List.reverseRecOn with
  | nil => simp at h
  | append_singleton as b ih =>
    rw [List.zipIdx_append, List.zipIdx_singleton, firstFrame_concat Chain.zipIdx_ne_zero] at h
    have hget : ∀ {m a}, (as ++ [b])[m]? = some a → as[m]? = some a ∨ m = as.length ∧ a = b := by
      intro m a hm
      rcases lt_or_ge m as.length with hlt | hge
      · rw [List.getElem?_append_left hlt] at hm
        exact Or.inl hm
      · rw [List.getElem?_append_right hge, List.getElem?_singleton] at hm
        split_ifs at hm with h₀
        exact Or.inr ⟨by omega, (Option.some.inj hm).symm⟩
    split_ifs at h with hif
    · obtain rfl : n = as.length := by omega
      refine ⟨⟨b, by simp, hif.1⟩, fun m a hm hsees => ?_⟩
      by_contra hlt
      -- no atropos before the last one sees the event
      rcases hget hm with hm | ⟨rfl, -⟩
      · have hmem : (a, m + 1) ∈ as.zipIdx 1 :=
          List.mk_mem_zipIdx_iff_le_and_getElem?_sub.mpr ⟨by omega, by simpa using hm⟩
        exact (firstFrame_ne_zero_iff Chain.zipIdx_ne_zero).mpr ⟨_, hmem, hsees⟩ hif.2
      · exact hlt le_rfl
    · obtain ⟨⟨a, ha, hsees⟩, hfirst⟩ := ih h
      have hlt := (List.getElem?_eq_some_iff.mp ha).1
      refine ⟨⟨a, by rw [List.getElem?_append_left hlt, ha], hsees⟩, fun m a' hm hsees' => ?_⟩
      rcases hget hm with hm | ⟨rfl, -⟩
      · exact hfirst m a' hm hsees'
      · exact hlt.le

end Frames

namespace Chain

variable {cfg : Config} {es : EpochState} {c₀ c : Chain} {ds : List (EventID × Block)}
variable {sealed : Bool} {as : List EventID} {a b : EventID} {n : ℕ} {block : Block}

/-- The block of the frame `n + 1`, when the frames were decided with the atropoi `as`. -/
def BlockOf (cfg : Config) (es : EpochState) (as : List EventID) (n : ℕ) (a : EventID)
    (block : Block) : Prop :=
  ∃ events D, block.events = fareOrdering events ∧ (events.map Event.hash).Nodup ∧
    Connected cfg es D ∧ ∀ e ∈ events, e.hash ∈ D ∧ cfg.events es e.hash = some e ∧
      firstFrame (cfg.dag es) (as.zipIdx 1) e.hash = n + 1 ∧ (cfg.dag es).Sees a e.hash ∧
      ¬ (cfg.dag es).SeesFork a e.creator

lemma BlockOf.concat (h : BlockOf cfg es as n a block) : BlockOf cfg es (as ++ [b]) n a block := by
  classical
  obtain ⟨events, D, hblock, hnodup, hD, hevents⟩ := h
  refine ⟨events, D, hblock, hnodup, hD, fun e he => ?_⟩
  obtain ⟨hmem, hstored, hfirst, hrest⟩ := hevents e he
  refine ⟨hmem, hstored, ?_, hrest⟩
  rw [List.zipIdx_append, List.zipIdx_singleton, firstFrame_concat zipIdx_ne_zero, hfirst]
  simp

lemma FrameDecided.blockOf {c' : Chain} (hes : c.epochState = es) (hmarked : c.MarkedBy cfg es as)
    (h : FrameDecided cfg es (as.length + 1) a c block sealed c') :
    BlockOf cfg es (as ++ [a]) as.length a block := by
  obtain ⟨-, hmarked', D, highest, reported, s, hD, ha, hhighest, hblock⟩ := h.spec hes hmarked
  refine ⟨s.blockEvents, D, hblock.events, hblock.nodup.sublist (hblock.collects.sublist.map _), hD,
    fun e he => ?_⟩
  obtain ⟨hstored, hsees, hunmarked⟩ :=
    (hblock.reported_iff e).mp (hblock.collects.sublist.subset he)
  have hmem := hD.checked.valid.sees_mem ha hsees
  have hcreator := hD.creator_mem _ hmem
  rw [creator_eventDag hstored] at hcreator
  refine ⟨hmem, hstored, ?_, hsees, fun hfork => ?_⟩
  · rw [← hmarked' _ (hD.epoch _ hmem), hblock.marks, if_pos ⟨hsees, hunmarked⟩]
  · obtain ⟨t, ht⟩ := hhighest e.creator hcreator
    have hdetected := (ht.exact hD.checked.valid ha).1.mpr hfork
    rw [hblock.collects.honest e he] at hdetected
    cases hdetected

/-- Each block has the events of its frame. -/
lemma FramesDecided.inv (h : FramesDecided cfg es c₀ ds sealed c) :
    (sealed = false → c.epochState = es) ∧ c.MarkedBy cfg es (ds.map Prod.fst) ∧
      ∀ n d, ds[n]? = some d → BlockOf cfg es (ds.map Prod.fst) n d.1 d.2 := by
  induction h with
  | start hes hunmarked => exact ⟨fun _ => hes, fun x hx => by simp [hunmarked x hx], by simp⟩
  | @next ds c c' a block sealed before decided ih =>
    obtain ⟨hes, hmarked, hblocks⟩ := ih
    have hlen : ds.length = (ds.map Prod.fst).length := by simp
    rw [hlen] at decided
    obtain ⟨hgoing, hmarked', -⟩ := decided.spec (hes rfl) hmarked
    rw [List.map_append]
    refine ⟨hgoing, hmarked', fun n d hd => ?_⟩
    rcases lt_or_ge n ds.length with hlt | hge
    · rw [List.getElem?_append_left hlt] at hd
      exact (hblocks n d hd).concat
    · rw [List.getElem?_append_right hge, List.getElem?_singleton] at hd
      split_ifs at hd with h₀
      obtain rfl := Option.some.inj hd
      obtain rfl : n = (ds.map Prod.fst).length := by simp; omega
      exact decided.blockOf (hes rfl) hmarked

section

variable (h : BlockOf cfg es as n a block)
include h

lemma BlockOf.mem (hx : x ∈ block.events) :
    ∃ D, Connected cfg es D ∧ x ∈ D ∧ firstFrame (cfg.dag es) (as.zipIdx 1) x = n + 1 ∧
      (cfg.dag es).Sees a x ∧ ¬ (cfg.dag es).SeesFork a ((cfg.dag es).creator x) := by
  obtain ⟨events, D, hblock, -, hD, hevents⟩ := h
  rw [hblock, mem_fareOrdering] at hx
  obtain ⟨e, he, rfl⟩ := hx
  obtain ⟨hmem, hstored, hfirst, hsees, hfork⟩ := hevents e he
  exact ⟨D, hD, hmem, hfirst, hsees, by rwa [creator_eventDag hstored]⟩

lemma BlockOf.pairwise : block.events.Pairwise (FareLt (cfg.events es)) := by
  obtain ⟨events, D, hblock, hnodup, -, hevents⟩ := h
  rw [hblock]
  exact fareOrdering_pairwise hnodup fun e he => (hevents e he).2.1

lemma BlockOf.nodup : block.events.Nodup :=
  h.pairwise.imp fun {x y} hlt heq => by
    subst heq
    rcases hlt with hlt | ⟨-, hlt⟩ <;> exact lt_irrefl _ hlt

lemma BlockOf.idxOf_lt {y : EventID} (hx : x ∈ block.events) (hy : y ∈ block.events)
    (hlt : lamportOf (cfg.events es) x < lamportOf (cfg.events es) y) :
    block.events.idxOf x < block.events.idxOf y := by
  have hx' := List.idxOf_lt_length_of_mem hx
  have hy' := List.idxOf_lt_length_of_mem hy
  by_contra hle
  rcases (not_lt.mp hle).lt_or_eq with hgt | heq
  · have hpair := List.pairwise_iff_getElem.mp h.pairwise _ _ hy' hx' hgt
    rw [List.getElem_idxOf, List.getElem_idxOf] at hpair
    rcases hpair with hpair | ⟨hpair, -⟩ <;> omega
  · rw [(List.idxOf_inj hy).mp heq] at hlt
    exact lt_irrefl _ hlt

end

/-- Over any run of decided frames of an epoch, whatever the application allows into its blocks: no
event is twice in the blocks; every block is in the order of Lamport times and identifiers and has
only events that its frame confirmed, of creators whom the atropos does not see forking; and an
ancestor of an event is in an earlier block or earlier in the same one. -/
theorem FramesDecided.blocks_ordered (h : FramesDecided cfg es c₀ ds sealed c) :
    (ds.flatMap fun d => d.2.events).Nodup ∧
      (∀ (n : ℕ) (a : EventID) (block : Block), ds[n]? = some (a, block) →
        block.events.Pairwise (FareLt (cfg.events es)) ∧
        ∀ x ∈ block.events, c.confirmedOn x = n + 1 ∧ (cfg.dag es).Sees a x ∧
          ¬ (cfg.dag es).SeesFork a ((cfg.dag es).creator x)) ∧
      ∀ (n : ℕ) (a : EventID) (block : Block) (m : ℕ) (b : EventID) (block' : Block)
        (x y : EventID), ds[n]? = some (a, block) → ds[m]? = some (b, block') →
        x ∈ block.events → y ∈ block'.events → (cfg.dag es).Sees y x → x ≠ y →
        n < m ∨ n = m ∧ block.events.idxOf x < block.events.idxOf y := by
  obtain ⟨-, hmarked, hblocks⟩ := h.inv
  have hconfirmed : ∀ (n : ℕ) (a : EventID) (block : Block), ds[n]? = some (a, block) →
      ∀ x ∈ block.events, c.confirmedOn x = n + 1 := by
    intro n a block hn x hx
    obtain ⟨D, hD, hmem, hfirst, -⟩ := (hblocks n _ hn).mem hx
    rw [hmarked x (hD.epoch x hmem), hfirst]
  refine ⟨?_, fun n a block hn => ⟨(hblocks n _ hn).pairwise, fun x hx => ?_⟩, ?_⟩
  · rw [List.nodup_flatMap]
    refine ⟨fun d hd => ?_, List.pairwise_iff_getElem.mpr fun i j hi hj hij x hx hx' => ?_⟩
    · obtain ⟨n, hn⟩ := List.mem_iff_getElem?.mp hd
      exact (hblocks n d hn).nodup
    · have h₁ := hconfirmed i _ _ (List.getElem?_eq_getElem hi) x hx
      have h₂ := hconfirmed j _ _ (List.getElem?_eq_getElem hj) x hx'
      omega
  · obtain ⟨-, -, -, -, hsees, hfork⟩ := (hblocks n _ hn).mem hx
    exact ⟨hconfirmed n a block hn x hx, hsees, hfork⟩
  · intro n a block m b block' x y hn hm hx hy hyx hne
    obtain ⟨-, -, -, hfirst, -⟩ := (hblocks n _ hn).mem hx
    obtain ⟨D, hD, hyD, -, hby, -⟩ := (hblocks m _ hm).mem hy
    have hle : n ≤ m := (firstFrame_zipIdx hfirst).2 m b (by simp [hm]) (hby.trans hyx)
    rcases hle.lt_or_eq with hlt | rfl
    · exact Or.inl hlt
    · obtain ⟨rfl, rfl⟩ := Prod.mk.inj (Option.some.inj (hn.symm.trans hm))
      exact Or.inr ⟨rfl, (hblocks n _ hn).idxOf_lt hx hy
        (hD.checked.lamportOf_lt hyD hyx (Ne.symm hne))⟩

/-! ### Two frames of a graph with a fork -/

namespace Forked

/-- A node without callbacks that knows the events of the graph. -/
def config : Config :=
  ⟨3, fun _ => Index.Forked.events, ⟨none, none, false, none⟩, fun _ => 0, fun a _ => a⟩

/-- The first epoch, of three validators of one stake. -/
def epoch : EpochState := ⟨1, ⟨0, 1, 0, 0⟩, Index.Forked.equal⟩

/-- The chain at its beginning. -/
def chain : Chain := ⟨⟨none, none, none, ∅, ∅⟩, ⟨0, 0, 0, 0⟩, epoch, []⟩

lemma markedBy : chain.MarkedBy config epoch [] := fun _ _ => rfl

lemma legal : Index.Legal config.maxParents epoch.validators (config.events epoch) (∅, ∅)
    Index.Forked.calls := by
  decide +kernel

lemma epoch_of_add (e : Event) (he : IndexCall.add e ∈ Index.Forked.calls) : e.epoch = 1 := by
  simp only [Index.Forked.calls, List.mem_cons, IndexCall.add.injEq, reduceCtorEq,
    List.not_mem_nil, or_false, false_or] at he
  rcases he with rfl | rfl | rfl | rfl <;> rfl

lemma atroposRead : ∃ highest, AtroposRead config epoch Index.Forked.aboveLeft.hash highest :=
  exists_atroposRead Index.smallCaches legal epoch_of_add (by decide +kernel)

/-- The frame `f` is decided by `a`, whose clock is read after all events were added. -/
def decideFrame (f : ℕ) (a : EventID) (c : Chain) : Except Fault (Block × Bool × Chain) := do
  let (r, _) ← (do Index.run Index.Forked.calls; Index.getHighestBeforeMerged a).run
    (Index.new epoch.validators .empty (config.events epoch) : Index Index.smallCaches)
  let (block, cheaters, c) ← confirmBlock config 4 (r.getD (.new 0)).get f a
    { c with checkpoint := { c.checkpoint with lastDecidedFrame := f } }
  let (sealed, c) ← finishFrame config f a block cheaters c
  return (block, sealed, c)

lemma frameDecided {sealed : Bool} (ha : a ∈ (Index.stored Index.Forked.calls).1)
    (h : decideFrame f a c = .ok (block, sealed, c')) :
    FrameDecided config epoch f a c block sealed c' := by
  unfold decideFrame at h
  obtain ⟨⟨r, vi⟩, hread, h⟩ := bind_eq_ok_iff.mp h
  obtain ⟨⟨_, cheaters, c₁⟩, hconfirm, h⟩ := bind_eq_ok_iff.mp h
  obtain ⟨⟨_, _⟩, hfinish, h⟩ := bind_eq_ok_iff.mp h
  cases h
  exact ⟨4, _, cheaters, c₁, ⟨_, _, legal, epoch_of_add, ha, r, vi, hread, rfl⟩, hconfirm, hfinish⟩

end Forked

open Index.Forked in
theorem FramesDecided.blocks_ordered_forked : ∃ lower upper c,
    FramesDecided Forked.config Forked.epoch Forked.chain
      [(left.hash, lower), (aboveLeft.hash, upper)] false c ∧
    lower.events = [left.hash] ∧ upper.events = [aboveLeft.hash] ∧
    c.confirmedOn left.hash = 1 ∧ c.confirmedOn aboveLeft.hash = 2 ∧
    (Forked.config.dag Forked.epoch).Sees aboveLeft.hash left.hash ∧
    ¬ (Forked.config.dag Forked.epoch).Sees left.hash aboveLeft.hash := by
  obtain ⟨⟨upper, sealed₂, c⟩, hrun, h₂⟩ := map_eq_ok_iff.mp (by decide +kernel :
    (Forked.decideFrame 1 left.hash Forked.chain >>= fun r =>
      Forked.decideFrame 2 aboveLeft.hash r.2.2).map (fun r => (r.1.events, r.2.1)) =
      .ok ([aboveLeft.hash], false))
  obtain ⟨⟨lower, sealed₁, c₁⟩, hrun₁, hrun₂⟩ := bind_eq_ok_iff.mp hrun
  have h₁ : (Forked.decideFrame 1 left.hash Forked.chain).map (fun r => (r.1.events, r.2.1)) =
      .ok ([left.hash], false) := by
    decide +kernel
  rw [hrun₁] at h₁
  obtain ⟨hlower, rfl⟩ := Prod.mk.inj (Except.ok.inj h₁)
  obtain ⟨hupper, rfl⟩ := Prod.mk.inj h₂
  have hstart : FramesDecided Forked.config Forked.epoch Forked.chain [] false Forked.chain :=
    .start rfl fun _ _ => rfl
  have hfirst := hstart.next (Forked.frameDecided (by decide +kernel) hrun₁)
  have hsecond := hfirst.next (Forked.frameDecided (by decide +kernel) hrun₂)
  obtain ⟨-, hblocks, hordered⟩ := blocks_ordered hsecond
  have hx : left.hash ∈ lower.events := List.mem_of_mem_head? (congrArg List.head? hlower)
  have hy : aboveLeft.hash ∈ upper.events := List.mem_of_mem_head? (congrArg List.head? hupper)
  refine ⟨lower, upper, c, hsecond, hlower, hupper, ((hblocks 0 _ _ rfl).2 _ hx).1,
    ((hblocks 1 _ _ rfl).2 _ hy).1, ForkDag.Sees.of_mem_parents (by decide +kernel), fun hsees => ?_⟩
  have h := hordered 1 _ _ 0 _ _ _ _ rfl rfl hy hx hsees (by decide)
  omega

end Chain

end Lachesis
