import Lachesis.Eventcheck
import Lachesis.Poset.FrameDecide

/-!
# Confirmation is exact

The walk of a decided frame is pruned at the events that an earlier frame has confirmed. As the
confirmed events are closed under parents, it marks and reports exactly the ancestors of the atropos
that were not confirmed before, each of them once. After any sequence of decided frames an event is
marked with the first frame whose atropos sees it.
-/

namespace Lachesis

open Lachesis.Core

/-- A set of events stored under their identifiers and closed under parents. -/
def StoredSet (getEvent : GetEvent) (D : Set EventID) : Prop :=
  ∀ id ∈ D, ∃ e, getEvent id = some e ∧ e.hash = id ∧ ∀ p ∈ e.parents, p ∈ D

lemma CheckedSet.storedSet {maxParents : ℕ} {getEvent : GetEvent} {D : Set EventID}
    (h : CheckedSet maxParents getEvent D) : StoredSet getEvent D := by
  intro id hid
  obtain ⟨e, he, hash, -⟩ := h.exists_event hid
  exact ⟨e, he, hash, h.parents_mem id hid e he⟩

section

variable {getEvent : GetEvent} {D : Set EventID}

lemma StoredSet.sees_mem (h : StoredSet getEvent D) {x y : EventID} (hx : x ∈ D)
    (hxy : (eventDag getEvent).Sees x y) : y ∈ D := by
  induction hxy with
  | refl => exact hx
  | tail _ hp ih =>
    obtain ⟨e, he, -, hmem⟩ := h _ ih
    exact hmem _ (by rwa [parents_eventDag he] at hp)

lemma CheckedSet.lamport_le_of_sees {maxParents : ℕ} (h : CheckedSet maxParents getEvent D)
    {x y : EventID} (hx : x ∈ D) (hxy : (eventDag getEvent).Sees x y) {e e' : Event}
    (he : getEvent x = some e) (he' : getEvent y = some e') : e'.lamport ≤ e.lamport := by
  induction hxy generalizing e' with
  | refl =>
    obtain rfl : e = e' := Option.some.inj (he.symm.trans he')
    exact le_rfl
  | @tail z y hxz hzy ih =>
    have hz := h.valid.sees_mem hx hxz
    obtain ⟨d, hd, -, -⟩ := h.exists_event hz
    rw [parents_eventDag hd] at hzy
    exact (h.lamport_lt hz hd hzy he').le.trans (ih hd)

end

/-! ### One frame -/

section Frame

variable {getEvent : GetEvent} {σ : Type} {D : Finset EventID}
variable {marks : Marks} {frame : ℕ} {a : EventID} {report : Event → σ → Except Fault σ}

/-- In the middle of the walk from `a`: the events of `M` are confirmed, and `reported` are those of
them that were not confirmed before. -/
structure Reported (getEvent : GetEvent) (D : Finset EventID) (marks : Marks)
    (frame : ℕ) (I : List Event → σ → Prop) (M : Set EventID) (reported : List Event)
    (s : Marks × σ) : Prop where
  inv : I reported s.2
  nodup : (reported.map Event.hash).Nodup
  mem_iff : ∀ e, e ∈ reported ↔
    getEvent e.hash = some e ∧ e.hash ∈ M ∧ marks.confirmedOn e.hash = 0
  old : ∀ x ∈ D, marks.confirmedOn x ≠ 0 → x ∈ M
  new : ∀ x ∈ M, marks.confirmedOn x = 0 → s.1.confirmedOn x = frame
  unchanged : ∀ x, x ∉ M ∨ marks.confirmedOn x ≠ 0 → s.1.confirmedOn x = marks.confirmedOn x

namespace Reported

variable {I : List Event → σ → Prop} {M : Set EventID} {reported : List Event} {s : Marks × σ}
variable {x : EventID}

lemma dfsStep_old (h : Reported getEvent D marks frame I M reported s) (hf : frame ≠ 0)
    {e : Event} (he : getEvent x = some e) (hhash : e.hash = x) (hx : x ∈ M) :
    dfsStep getEvent (confirmEvent frame report) s x = .ok (s, []) := by
  have hmark : s.1.confirmedOn x ≠ 0 := by
    by_cases h₀ : marks.confirmedOn x = 0
    · rwa [h.new x hx h₀]
    · rwa [h.unchanged x (Or.inr h₀)]
  simp only [dfsStep, he, confirmEvent, hhash, if_pos hmark]

/-- An unconfirmed event is marked and its parents are pushed. -/
lemma dfsStep_new (h : Reported getEvent D marks frame I M reported s) {e : Event}
    (he : getEvent x = some e) (hhash : e.hash = x) (hxD : x ∈ D) (hx : x ∉ M) {t : σ}
    (ht : report e s.2 = .ok t) (hI : I (reported ++ [e]) t) :
    dfsStep getEvent (confirmEvent frame report) s x
        = .ok ((s.1.set x frame, t), e.parents) ∧
      Reported getEvent D marks frame I (insert x M) (reported ++ [e]) (s.1.set x frame, t) := by
  have h₀ : marks.confirmedOn x = 0 := by
    by_contra hne
    exact hx (h.old x hxD hne)
  have hmark : s.1.confirmedOn x = 0 := by rw [h.unchanged x (Or.inl hx), h₀]
  refine ⟨by simp [dfsStep, he, confirmEvent, hhash, hmark, ht, Except.map], hI, ?_, ?_, ?_, ?_, ?_⟩
  · rw [List.map_append, List.nodup_append]
    refine ⟨h.nodup, by simp, ?_⟩
    rintro y hy z hz rfl
    obtain ⟨e', he', rfl⟩ := List.mem_map.mp hy
    rw [List.map_singleton, List.mem_singleton, hhash] at hz
    exact hx (hz ▸ ((h.mem_iff e').mp he').2.1)
  · intro e'
    rw [List.mem_append, List.mem_singleton, h.mem_iff]
    constructor
    · rintro (⟨h₁, h₂, h₃⟩ | rfl)
      · exact ⟨h₁, Set.mem_insert_of_mem _ h₂, h₃⟩
      · exact ⟨hhash ▸ he, hhash ▸ Set.mem_insert _ _, hhash ▸ h₀⟩
    · rintro ⟨h₁, h₂ | h₂, h₃⟩
      · rw [h₂, he] at h₁
        exact Or.inr (Option.some.inj h₁).symm
      · exact Or.inl ⟨h₁, h₂, h₃⟩
  · exact fun y hyD hy => Set.mem_insert_of_mem _ (h.old y hyD hy)
  · rintro y (rfl | hy) hy₀
    · simp [Marks.confirmedOn_set]
    · rw [Marks.confirmedOn_set, if_neg (by rintro rfl; exact hx hy), h.new y hy hy₀]
  · intro y hy
    have hne : y ≠ x := by
      rintro rfl
      exact hy.elim (fun hy => hy (Set.mem_insert _ _)) (fun hy => hy h₀)
    rw [Marks.confirmedOn_set, if_neg hne]
    exact h.unchanged y (hy.imp_left fun hy hM => hy (Set.mem_insert_of_mem _ hM))

end Reported

open Classical in
/-- Confirming a frame: `I` holds of the events reported so far and of what the reports changed. The
events reported in the end are the ancestors of the atropos that were not confirmed before. -/
theorem confirmEvents_ok (report : Event → σ → Except Fault σ) (hD : StoredSet getEvent D)
    (I : List Event → σ → Prop)
    (hclosed : ∀ x ∈ D, marks.confirmedOn x ≠ 0 → ∀ p ∈ (eventDag getEvent).parents x,
      marks.confirmedOn p ≠ 0)
    (hframe : frame ≠ 0) (ha : a ∈ D) {fuel : ℕ}
    (hfuel : 1 + ∑ x ∈ D, ((eventDag getEvent).parents x).length ≤ fuel) {s : σ} (h₀ : I [] s)
    (hreport : ∀ done e t, getEvent e.hash = some e → (eventDag getEvent).Sees a e.hash →
      marks.confirmedOn e.hash = 0 → I done t → ∃ t', report e t = .ok t' ∧ I (done ++ [e]) t') :
    ∃ marks' t reported, confirmEvents getEvent fuel frame a report (marks, s) = .ok (marks', t) ∧
      I reported t ∧ (reported.map Event.hash).Nodup ∧
      (∀ e, e ∈ reported ↔ getEvent e.hash = some e ∧ (eventDag getEvent).Sees a e.hash ∧
        marks.confirmedOn e.hash = 0) ∧
      ∀ x, marks'.confirmedOn x =
        if (eventDag getEvent).Sees a x ∧ marks.confirmedOn x = 0 then frame
        else marks.confirmedOn x := by
  let next := (eventDag getEvent).parents
  -- the walk stays below the atropos
  let D' := D.filter fun x => (eventDag getEvent).Sees a x
  have hstored : ∀ x ∈ D', ∃ e, getEvent x = some e ∧ e.hash = x ∧ next x = e.parents ∧
      x ∈ D ∧ (eventDag getEvent).Sees a x := by
    intro x hx
    obtain ⟨hxD, hax⟩ := Finset.mem_filter.mp hx
    obtain ⟨e, he, hhash, -⟩ := hD x hxD
    exact ⟨e, he, hhash, parents_eventDag he, hxD, hax⟩
  let St (M : Set EventID) (s : Marks × σ) : Prop :=
    ∃ reported, Reported getEvent D marks frame I M reported s
  let visit := dfsStep getEvent (confirmEvent frame report)
  have hD' : ∀ x ∈ D', ∀ y ∈ next x, y ∈ D' := by
    intro x hx y hy
    obtain ⟨e, -, -, -, hxD, hax⟩ := hstored x hx
    have hxy := ForkDag.Sees.of_mem_parents hy
    exact Finset.mem_filter.mpr ⟨hD.sees_mem hxD hxy, hax.trans hxy⟩
  have hold : ∀ M t x, x ∈ D' → x ∈ M → St M t → ∃ t', visit t x = .ok (t', []) ∧ St M t' := by
    rintro M t x hx hxM ⟨reported, h⟩
    obtain ⟨e, he, hhash, -⟩ := hstored x hx
    exact ⟨t, h.dfsStep_old hframe he hhash hxM, reported, h⟩
  have hnew : ∀ M t x, x ∈ D' → x ∉ M → St M t →
      ∃ t', visit t x = .ok (t', next x) ∧ St (insert x M) t' := by
    rintro M t x hx hxM ⟨reported, h⟩
    obtain ⟨e, he, hhash, hnext, hxD, hax⟩ := hstored x hx
    have hunmarked : marks.confirmedOn x = 0 := by
      by_contra hne
      exact hxM (h.old x hxD hne)
    obtain ⟨u, hu, hI⟩ := hreport reported e t.2 (hhash ▸ he) (hhash ▸ hax)
      (hhash ▸ hunmarked) h.inv
    obtain ⟨hstep, hrep⟩ := h.dfsStep_new he hhash hxD hxM hu hI
    exact ⟨_, hnext ▸ hstep, _, hrep⟩
  have hstart : St {x | x ∈ D ∧ marks.confirmedOn x ≠ 0} (marks, s) := by
    refine ⟨[], h₀, by simp, fun e => ?_, fun x hx hne => ⟨hx, hne⟩,
      fun x hx h₀ => absurd h₀ hx.2, fun _ _ => rfl⟩
    simp only [List.not_mem_nil, false_iff]
    rintro ⟨-, ⟨-, hne⟩, h₀⟩
    exact hne h₀
  obtain ⟨s', hrun, reported, hrep⟩ := walk_marks Fault.outOfFuel St hD' hold hnew (n := fuel) [a]
    (by
      intro x hx
      obtain rfl := List.mem_singleton.mp hx
      exact Finset.mem_filter.mpr ⟨ha, ForkDag.Sees.refl x⟩)
    (by
      rintro x ⟨hxD, hx⟩ y hy
      exact ⟨hD.sees_mem hxD (ForkDag.Sees.of_mem_parents hy), hclosed x hxD hx y hy⟩)
    hstart
    (by
      refine le_trans ?_ hfuel
      simp only [List.length_singleton]
      exact Nat.add_le_add_left (Finset.sum_le_sum_of_subset (Finset.filter_subset _ _)) 1)
  have hM : ∀ x, marks.confirmedOn x = 0 →
      (x ∈ {x | x ∈ D ∧ marks.confirmedOn x ≠ 0} ∪ {y | ∃ x ∈ [a], Reach next x y} ↔
        (eventDag getEvent).Sees a x) := by
    intro x hx
    simp only [Set.mem_union, Set.mem_ofPred_eq, hx, ne_eq, not_true, and_false, false_or,
      List.mem_singleton, exists_eq_left]
    rfl
  refine ⟨s'.1, s'.2, reported, hrun, hrep.inv, hrep.nodup, fun e => ?_, fun x => ?_⟩
  · rw [hrep.mem_iff]
    exact and_congr_right fun _ => and_congr_left fun h₀ => hM _ h₀
  · split_ifs with hx
    · exact hrep.new x ((hM x hx.2).mpr hx.1) hx.2
    · refine hrep.unchanged x ?_
      by_cases h₀ : marks.confirmedOn x = 0
      · exact Or.inl fun hmem => hx ⟨(hM x h₀).mp hmem, h₀⟩
      · exact Or.inr h₀

end Frame

/-! ### Any number of frames -/

section Frames

variable {getEvent : GetEvent} {G : EventDag}
variable {decided : List (EventID × ℕ)} {x a : EventID} {f : ℕ}

open Classical in
/-- The first of the decided frames whose atropos sees `x`; zero if there is none. -/
noncomputable def firstFrame (G : EventDag) (decided : List (EventID × ℕ))
    (x : EventID) : ℕ :=
  ((decided.find? fun d => G.Sees d.1 x).map (·.2)).getD 0

@[simp] lemma firstFrame_nil : firstFrame G [] x = 0 := rfl

lemma firstFrame_ne_zero_iff (hd : ∀ d ∈ decided, d.2 ≠ 0) :
    firstFrame G decided x ≠ 0 ↔ ∃ d ∈ decided, G.Sees d.1 x := by
  classical
  unfold firstFrame
  cases hfind : decided.find? fun d => G.Sees d.1 x with
  | none =>
    rw [List.find?_eq_none] at hfind
    simp only [decide_eq_true_eq] at hfind
    simpa using hfind
  | some d =>
    have hsees : G.Sees d.1 x := by simpa using List.find?_some hfind
    have hmem := List.mem_of_find?_eq_some hfind
    exact iff_of_true (hd d hmem) ⟨d, hmem, hsees⟩

lemma firstFrame_ne_zero_of_parent (hd : ∀ d ∈ decided, d.2 ≠ 0) {p : EventID}
    (hp : p ∈ G.parents x) (h : firstFrame G decided x ≠ 0) : firstFrame G decided p ≠ 0 := by
  obtain ⟨d, hmem, hdx⟩ := (firstFrame_ne_zero_iff hd).mp h
  exact (firstFrame_ne_zero_iff hd).mpr ⟨d, hmem, hdx.trans (.of_mem_parents hp)⟩

open Classical in
/-- A later frame marks only what is not marked yet. -/
lemma firstFrame_concat (hd : ∀ d ∈ decided, d.2 ≠ 0) :
    firstFrame G (decided ++ [(a, f)]) x =
      if G.Sees a x ∧ firstFrame G decided x = 0 then f else firstFrame G decided x := by
  cases hfind : decided.find? fun d => G.Sees d.1 x with
  | some d =>
    have hne : firstFrame G decided x ≠ 0 := by
      rw [firstFrame, hfind]
      exact hd d (List.mem_of_find?_eq_some hfind)
    rw [if_neg fun h => hne h.2, firstFrame, firstFrame, List.find?_append, hfind]
    rfl
  | none =>
    have h₀ : firstFrame G decided x = 0 := by
      rw [firstFrame, hfind]
      rfl
    rw [firstFrame, List.find?_append, hfind, h₀]
    by_cases hsees : G.Sees a x <;> simp [hsees, List.find?]

/-- Confirm decided frames one after the other. -/
def confirmFrames {σ : Type} (getEvent : GetEvent) (fuel : ℕ)
    (onEventConfirmed : ℕ → Event → σ → Except Fault σ) (decided : List (EventID × ℕ))
    (s : Marks × σ) : Except Fault (Marks × σ) :=
  decided.foldlM (fun s d => confirmEvents getEvent fuel d.2 d.1 (onEventConfirmed d.2) s) s

/-- After the decided frames: marks and reports are those of the first frame that sees an event. -/
structure Confirmed (getEvent : GetEvent) (D : Set EventID) (decided : List (EventID × ℕ))
    (marks' : Marks) (reported : List (Event × ℕ)) : Prop where
  marks_eq : ∀ x ∈ D, marks'.confirmedOn x = firstFrame (eventDag getEvent) decided x
  nodup : (reported.map (·.1.hash)).Nodup
  reported_iff : ∀ e f, (e, f) ∈ reported ↔ e.hash ∈ D ∧ getEvent e.hash = some e ∧ f ≠ 0 ∧
    f = firstFrame (eventDag getEvent) decided e.hash

namespace Confirmed

variable {D : Set EventID} {marks marks' marks'' : Marks} {reported : List (Event × ℕ)}

lemma nil (h₀ : ∀ x ∈ D, marks.confirmedOn x = 0) : Confirmed getEvent D [] marks [] where
  marks_eq x hx := by simp [h₀ x hx]
  nodup := by simp
  reported_iff e f := by simp

lemma closed (h : Confirmed getEvent D decided marks' reported) (hD : StoredSet getEvent D)
    (hd : ∀ d ∈ decided, d.2 ≠ 0) (hx : x ∈ D) (hmark : marks'.confirmedOn x ≠ 0) {p : EventID}
    (hp : p ∈ (eventDag getEvent).parents x) : marks'.confirmedOn p ≠ 0 := by
  rw [h.marks_eq x hx] at hmark
  rw [h.marks_eq p (hD.sees_mem hx (.of_mem_parents hp))]
  exact firstFrame_ne_zero_of_parent hd hp hmark

open Classical in
/-- The next frame confirms what no frame before it did. -/
lemma concat (h : Confirmed getEvent D decided marks' reported) (hD : StoredSet getEvent D)
    (hd : ∀ d ∈ decided, d.2 ≠ 0) (ha : a ∈ D) (hf : f ≠ 0) {new : List Event}
    (hnodup : (new.map Event.hash).Nodup)
    (hnew : ∀ e, e ∈ new ↔ getEvent e.hash = some e ∧ (eventDag getEvent).Sees a e.hash ∧
      marks'.confirmedOn e.hash = 0)
    (hmarks : ∀ x, marks''.confirmedOn x =
      if (eventDag getEvent).Sees a x ∧ marks'.confirmedOn x = 0 then f else marks'.confirmedOn x) :
    Confirmed getEvent D (decided ++ [(a, f)]) marks'' (reported ++ new.map (·, f)) where
  marks_eq x hx := by rw [hmarks, h.marks_eq x hx, firstFrame_concat hd]
  nodup := by
    rw [List.map_append, List.map_map, List.nodup_append]
    refine ⟨h.nodup, hnodup, ?_⟩
    rintro y hy z hz rfl
    obtain ⟨⟨e, g⟩, he, rfl⟩ := List.mem_map.mp hy
    obtain ⟨e', he', heq⟩ := List.mem_map.mp hz
    obtain ⟨hmem, -, hg, hgeq⟩ := (h.reported_iff e g).mp he
    -- an event that was reported before is marked, and a new one is not
    have h₀ := ((hnew e').mp he').2.2
    have heq' : e'.hash = e.hash := heq
    rw [heq', h.marks_eq _ hmem, ← hgeq] at h₀
    exact hg h₀
  reported_iff e g := by
    rw [List.mem_append, h.reported_iff, firstFrame_concat hd, List.mem_map]
    constructor
    · rintro (⟨hmem, he, hg, hgeq⟩ | ⟨e', he', heq⟩)
      · exact ⟨hmem, he, hg, by rw [if_neg fun h₀ => hg (hgeq.trans h₀.2), hgeq]⟩
      · cases heq
        obtain ⟨he, hsees, h₀⟩ := (hnew e).mp he'
        have hmem := hD.sees_mem ha hsees
        rw [h.marks_eq _ hmem] at h₀
        exact ⟨hmem, he, hf, by rw [if_pos ⟨hsees, h₀⟩]⟩
    · rintro ⟨hmem, he, hg, hgeq⟩
      split_ifs at hgeq with hif
      · refine Or.inr ⟨e, (hnew e).mpr ⟨he, hif.1, ?_⟩, by rw [hgeq]⟩
        rw [h.marks_eq _ hmem, hif.2]
      · exact Or.inl ⟨hmem, he, hg, hgeq⟩

end Confirmed

/-- Over any run of decided frames with the atropoi of `decided`, started when none of the events was
confirmed: the walks terminate; the marked events are exactly those that some atropos sees, they are
marked with the first frame that does and are closed under parents; and the reports are one for each
of them, with that frame. -/
theorem confirmFrames_exact {σ : Type} {D : Finset EventID} (hD : StoredSet getEvent D)
    {marks : Marks} (h₀ : ∀ x ∈ D, marks.confirmedOn x = 0)
    (hd : ∀ d ∈ decided, d.1 ∈ D ∧ d.2 ≠ 0) {fuel : ℕ}
    (hfuel : 1 + ∑ x ∈ D, ((eventDag getEvent).parents x).length ≤ fuel)
    (onEventConfirmed : ℕ → Event → σ → σ) (s : σ) :
    ∃ (marks' : Marks) (reported : List (Event × ℕ)),
      confirmFrames getEvent fuel (fun f e s => .ok (onEventConfirmed f e s)) decided (marks, s)
        = .ok (marks', reported.foldl (fun t r => onEventConfirmed r.2 r.1 t) s) ∧
      (∀ x ∈ D, marks'.confirmedOn x ≠ 0 ↔
        ∃ d ∈ decided, (eventDag getEvent).Sees d.1 x) ∧
      (∀ x ∈ D, marks'.confirmedOn x = firstFrame (eventDag getEvent) decided x) ∧
      (∀ x ∈ D, marks'.confirmedOn x ≠ 0 → ∀ p ∈ (eventDag getEvent).parents x,
        marks'.confirmedOn p ≠ 0) ∧
      (reported.map (·.1.hash)).Nodup ∧
      ∀ e f, (e, f) ∈ reported ↔ e.hash ∈ D ∧ getEvent e.hash = some e ∧ f ≠ 0 ∧
        f = firstFrame (eventDag getEvent) decided e.hash := by
  obtain ⟨⟨marks', t⟩, hrun, reported, hconf, hfold⟩ := foldlM_ok
    (fun s d => confirmEvents getEvent fuel d.2 d.1 (fun e s => .ok (onEventConfirmed d.2 e s)) s)
    decided (marks, s)
    (fun done s' => ∃ reported, Confirmed getEvent D done s'.1 reported ∧
      s'.2 = reported.foldl (fun t r => onEventConfirmed r.2 r.1 t) s)
    ⟨[], .nil h₀, rfl⟩
    (by
      rintro done ⟨a, f⟩ rest ⟨marks', t⟩ hsplit ⟨reported, hconf, rfl⟩
      have hdone : ∀ d ∈ done, d.2 ≠ 0 := fun d hmem => (hd d (by simp [hsplit, hmem])).2
      obtain ⟨ha, hf⟩ := hd (a, f) (by simp [hsplit])
      obtain ⟨marks'', t, new, hstep, ht, hnodup, hnew, hmarks⟩ := confirmEvents_ok
        (fun e s => .ok (onEventConfirmed f e s)) hD
        (fun l t => t = l.foldl (fun t e => onEventConfirmed f e t)
          (reported.foldl (fun t r => onEventConfirmed r.2 r.1 t) s))
        (fun x hx hmark p hp => hconf.closed hD hdone hx hmark hp) hf ha hfuel rfl
        (by
          rintro l e t - - - rfl
          exact ⟨_, rfl, by simp⟩)
      refine ⟨(marks'', t), hstep, _, hconf.concat hD hdone ha hf hnodup hnew hmarks, ?_⟩
      rw [ht, List.foldl_append, List.foldl_map])
  have hne : ∀ d ∈ decided, d.2 ≠ 0 := fun d hmem => (hd d hmem).2
  have hfold : t = _ := hfold
  exact ⟨marks', reported, by rw [confirmFrames, hrun, hfold],
    fun x hx => by rw [hconf.marks_eq x hx, firstFrame_ne_zero_iff hne], hconf.marks_eq,
    fun x hx hmark p hp => hconf.closed hD hne hx hmark hp, hconf.nodup, hconf.reported_iff⟩

namespace Pair

/-- The first event of a validator. -/
def low : Event := ⟨1, 1, 1, true, 1, 0, [], 1, 1, 1, 1⟩

/-- Its second event. -/
def high : Event := ⟨1, 2, 2, true, 1, 0, [low.hash], 2, 2, 2, 2⟩

def events : GetEvent := lookup [low, high]

lemma storedSet : StoredSet events ({low.hash, high.hash} : Finset EventID) := by
  intro id hid
  rcases Finset.mem_insert.mp hid with rfl | hid
  · exact ⟨low, by decide, rfl, by decide⟩
  · rw [Finset.mem_singleton.mp hid]
    exact ⟨high, by decide, rfl, by decide⟩

end Pair

theorem confirmFrames_exact_pair :
    (confirmFrames Pair.events 3 (fun f e log => .ok (log ++ [(e.hash, f)]))
      [(Pair.low.hash, 1), (Pair.high.hash, 2)] (∅, [])).map Prod.snd
        = .ok [(Pair.low.hash, 1), (Pair.high.hash, 2)] ∧
    ∃ (marks : Marks) (reported : List (Event × ℕ)),
      confirmFrames Pair.events 3 (fun f e log => .ok (log ++ [(e.hash, f)]))
        [(Pair.low.hash, 1), (Pair.high.hash, 2)] (∅, [])
          = .ok (marks, reported.foldl (fun log r => log ++ [(r.1.hash, r.2)]) []) ∧
      marks.confirmedOn Pair.high.hash ≠ 0 ∧ (reported.map (·.1.hash)).Nodup := by
  have hunmarked : ∀ x ∈ ({Pair.low.hash, Pair.high.hash} : Finset EventID),
      Marks.confirmedOn ∅ x = 0 := by decide
  have hdecided : ∀ d ∈ [(Pair.low.hash, 1), (Pair.high.hash, 2)],
      d.1 ∈ ({Pair.low.hash, Pair.high.hash} : Finset EventID) ∧ d.2 ≠ 0 := by decide
  have hfuel : 1 + ∑ x ∈ ({Pair.low.hash, Pair.high.hash} : Finset EventID),
      ((eventDag Pair.events).parents x).length ≤ 3 := by decide
  obtain ⟨marks, reported, hrun, hmarks, -, -, hnodup, -⟩ :=
    confirmFrames_exact Pair.storedSet hunmarked hdecided hfuel
      (fun f e log => log ++ [(e.hash, f)]) ([] : List (EventID × ℕ))
  refine ⟨by decide +kernel, marks, reported, hrun, ?_, hnodup⟩
  exact (hmarks Pair.high.hash (by decide)).mpr ⟨(Pair.high.hash, 2), by simp, .refl _⟩

end Frames

end Lachesis
