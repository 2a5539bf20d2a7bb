import Lachesis.Poset.Restart
import Mathlib.Order.Lattice.Nat

/-!
# The ladder of frames

An accepted event is of the frame of its self-parent, or of the next one if it is a root, and a root
has a quorum of roots of the frame before it behind it. So the frames that have roots follow each
other without a gap, and the loop of `processKnownRoots`, which ends at the first frame without
roots, has come across all of them.
-/

namespace Lachesis

open Lachesis.Core

section Known

variable {cfg : Config} {es : EpochState} {D : Set EventID} {A : Finset EventID}

/-- A root is one frame above its self-parent, another event in the same. -/
lemma Known.frame_eq (h : Known cfg es D A) {x : EventID} (hx : x ∈ A) :
    ∃ e, cfg.events es x = some e ∧ e.hash = x ∧
      (e.selfParent = none → e.frame = 1 ∧ e.isRoot = true) ∧
      ∀ q, e.selfParent = some q →
        e.frame = frameOf (cfg.events es) q + if e.isRoot then 1 else 0 := by
  obtain ⟨e, he, rfl, hchecked, haccepted⟩ := exists_of_mem_validEvents (h.valid x hx)
  have hpos := frameOf_pos (h.valid e.hash hx)
  rw [frameOf_eq he] at hpos
  refine ⟨e, he, rfl, fun hself => ?_, fun q hself => ?_⟩
  · by_cases hp : e.parents = []
    · exact haccepted.initial hp
    · have hframe := haccepted.frame hp
      rw [frameBefore, hself] at hframe
      cases hroot : e.isRoot with
      | true => exact ⟨by simpa [hroot] using hframe, rfl⟩
      | false =>
        -- without a self-parent only a root is of a frame
        simp [hroot] at hframe
        omega
  · rw [haccepted.frame (List.ne_nil_of_mem (Event.selfParent_mem hself)), frameBefore, hself]
    rfl

lemma Known.root_unique (h : Known cfg es D A) {x y : EventID}
    (hx : x ∈ rootsOf (cfg.events es) A) (hy : y ∈ rootsOf (cfg.events es) A)
    (hslot : slotOf (cfg.events es) x = slotOf (cfg.events es) y)
    (hforks : ¬ (cfg.dag es).Forks A ((cfg.dag es).creator x)) : x = y := by
  have hvalid := h.checkedSet.valid
  obtain ⟨hframe, hcreator⟩ := Slot.mk.inj hslot
  by_contra hne
  rcases le_total ((cfg.dag es).seq x) ((cfg.dag es).seq y) with hle | hle
  · have hsees := hvalid.selfSees_of_not_forks hx.1 hy.1 hcreator hle hforks
    have hlt := frameOf_lt_of_selfSees (h.valid y hy.1) hy.2 (Ne.symm hne) hsees
    omega
  · have hsees := hvalid.selfSees_of_not_forks hy.1 hx.1 hcreator.symm hle (hcreator ▸ hforks)
    have hlt := frameOf_lt_of_selfSees (h.valid x hx.1) hx.2 hne hsees
    omega

open Classical in
/-- The highest frame that has roots. -/
noncomputable def topFrame (cfg : Config) (es : EpochState) (A : Finset EventID) : ℕ :=
  (A.filter fun x => isRootOf (cfg.events es) x = true).sup (frameOf (cfg.events es))

open Classical in
/-- The frames that have roots are those up to the highest one. -/
lemma Known.exists_root_iff (h : Known cfg es D A) (f : ℕ) :
    (∃ x ∈ rootsOf (cfg.events es) A, frameOf (cfg.events es) x = f) ↔
      1 ≤ f ∧ f ≤ topFrame cfg es A := by
  constructor
  · rintro ⟨x, hx, rfl⟩
    exact ⟨frameOf_pos (h.valid x hx.1),
      Finset.le_sup (f := frameOf (cfg.events es)) (Finset.mem_filter.mpr hx)⟩
  · rintro ⟨hpos, hle⟩
    have hne : (A.filter fun x => isRootOf (cfg.events es) x = true).Nonempty := by
      by_contra hempty
      rw [topFrame, Finset.not_nonempty_iff_eq_empty.mp hempty, Finset.sup_empty] at hle
      exact absurd hpos (by simpa using hle)
    obtain ⟨x, hx, htop⟩ := Finset.exists_mem_eq_sup _ hne (frameOf (cfg.events es))
    rw [topFrame, htop] at hle
    exact h.exists_root hpos (Finset.mem_filter.mp hx) (Nat.add_sub_cancel' hle).symm

end Known

namespace Poset

variable {C : PosetCaches} {cfg : Config} {src : EventSource} {es : EpochState} {D : Set EventID}
variable {A : Finset EventID} {S : Set EventID} {p p' : Poset C}

/-- What a node keeps depends on no events but those it has accepted. -/
lemma Keeps.restrict (h : p.Keeps cfg es D A S) : p.Keeps cfg es A A S := by
  refine ⟨h.epochState, ⟨fun x hx y hxy => ?_, h.known.parents_mem⟩, h.index, h.records, h.coherent⟩
  exact ⟨h.known.sees_mem hx hxy, (h.known.valid x hx y hxy).2⟩

open Classical in
/-- The stored roots, frame by frame. -/
structure Ladder (cfg : Config) (es : EpochState) (A : Finset EventID) (p : Poset C) (top : ℕ) :
    Prop where
  /-- The frames with roots are those up to the highest one. -/
  frames : ∀ f, (p.roots.getFrameRoots f).1 ≠ [] ↔ 1 ≤ f ∧ f ≤ top
  /-- Below it there are roots of a quorum of validators. -/
  quorum : ∀ f, 1 ≤ f → f < top → es.validators.quorum.toNat ≤ weight es.validators.stakeOf
    (es.validators.members.filter fun v => ∃ r ∈ (p.roots.getFrameRoots f).1, r.slot.validator = v)
  /-- A root observes roots of a quorum of validators of the frame before. -/
  observed : ∀ f, 1 ≤ f → ∀ r ∈ (p.roots.getFrameRoots (f + 1)).1,
    es.validators.quorum.toNat ≤ weight es.validators.stakeOf (es.validators.members.filter fun v =>
      ∃ b ∈ (p.roots.getFrameRoots f).1, ForklessCaused es.validators
        (cfg.dag es) r.id b.id ∧ b.slot.validator = v)
  /-- A validator without a fork has one root of a frame. -/
  unique : ∀ r ∈ p.roots.records, ∀ r' ∈ p.roots.records, r.slot = r'.slot →
    ¬ (cfg.dag es).Forks A r.slot.validator → r = r'

open Classical in
lemma Keeps.observed (h : p.Keeps cfg es D A S) {f : ℕ} (hf : 1 ≤ f) {r : RootAndSlot}
    (hr : r ∈ (p.roots.getFrameRoots (f + 1)).1) :
    es.validators.quorum.toNat ≤ weight es.validators.stakeOf (es.validators.members.filter fun v =>
      ∃ b ∈ (p.roots.getFrameRoots f).1, ForklessCaused es.validators
        (cfg.dag es) r.id b.id ∧ b.slot.validator = v) := by
  obtain ⟨x, hx, hframe, rfl⟩ := ((h.mem_getFrameRoots (f + 1)).2 r).mp hr
  refine le_trans (h.known.quorum_le_weight hx (by omega)) (weight_mono _ fun v hv => ?_)
  obtain ⟨hv, b, hb, hbf, hobs, hbv⟩ := Finset.mem_filter.mp hv
  exact Finset.mem_filter.mpr ⟨hv, _,
    ((h.mem_getFrameRoots f).2 _).mpr ⟨b, hb, by omega, rfl⟩, observe_iff.mp hobs, hbv⟩

/-- No frame below the highest is without roots. -/
lemma Keeps.ladder (h : p.Keeps cfg es D A S) : p.Ladder cfg es A (topFrame cfg es A) := by
  classical
  have hframes : ∀ f, (p.roots.getFrameRoots f).1 ≠ [] ↔ 1 ≤ f ∧ f ≤ topFrame cfg es A := by
    intro f
    rw [← h.known.exists_root_iff f]
    constructor
    · intro hne
      obtain ⟨r, hr⟩ := List.exists_mem_of_ne_nil _ hne
      obtain ⟨x, hx, hf, -⟩ := ((h.mem_getFrameRoots f).2 r).mp hr
      exact ⟨x, hx, hf⟩
    · rintro ⟨x, hx, hf⟩
      exact List.ne_nil_of_mem (((h.mem_getFrameRoots f).2 _).mpr ⟨x, hx, hf, rfl⟩)
  refine ⟨hframes, fun f hf hlt => ?_, fun f hf r hr => h.observed hf hr, ?_⟩
  · -- the roots of the next frame observe them
    obtain ⟨r, hr⟩ := List.exists_mem_of_ne_nil _ ((hframes (f + 1)).mpr ⟨by omega, hlt⟩)
    refine le_trans (h.observed hf hr) (weight_mono _ fun v hv => ?_)
    obtain ⟨hv, b, hb, -, hbv⟩ := Finset.mem_filter.mp hv
    exact Finset.mem_filter.mpr ⟨hv, b, hb, hbv⟩
  · intro r hr r' hr' hslot hforks
    obtain ⟨x, hx, rfl⟩ := (h.records r).mp hr
    obtain ⟨y, hy, rfl⟩ := (h.records r').mp hr'
    rw [h.known.root_unique hx hy hslot hforks]

/-- In every reachable state the frames form a ladder, and `processKnownRoots` gives the election
all stored roots above the last decided frame, unless it decides a frame before. -/
theorem Reachable.frame_ladder (h : Reachable src cfg A p) :
    (∀ x ∈ A, ∃ e, cfg.events p.epochState x = some e ∧ e.hash = x ∧
      (e.selfParent = none → e.frame = 1 ∧ e.isRoot = true) ∧
      ∀ q, e.selfParent = some q →
        e.frame = frameOf (cfg.events p.epochState) q + if e.isRoot then 1 else 0) ∧
    (∃ top, p.Ladder cfg p.epochState A top) ∧
    (∀ p', processKnownRoots.run p = .ok (none, p') → ∃ done,
      (∀ r, (∃ x ∈ done, r = (rootGraph cfg p.epochState A).rootAndSlot x) ↔
        r ∈ p.roots.records ∧ p.chain.checkpoint.lastDecidedFrame < r.slot.frame) ∧
      Election.Polled (rootGraph cfg p.epochState A) p.election done none p'.election) ∧
    (Safe cfg p.epochState A → p.election = .new p.epochState.validators
      (p.chain.checkpoint.lastDecidedFrame + 1) → ∃ r, processKnownRoots.run p = .ok r) := by
  have hkeeps := h.rests.toKeeps.restrict
  refine ⟨fun x hx => hkeeps.known.frame_eq hx, ⟨_, hkeeps.ladder⟩, fun p' hrun => ?_,
    fun hsafe hnew => ?_⟩
  · obtain ⟨-, -, done, hdone, hall, hpolled, -⟩ :=
      (hkeeps.processKnownRoots_yields (T := False) (P := ∅) False.elim).returned _ _ hrun
    refine ⟨done, fun r => ⟨?_, fun ⟨hr, hlt⟩ => ?_⟩, hpolled⟩
    · rintro ⟨x, hx, rfl⟩
      exact ⟨(hkeeps.records _).mpr ⟨x, (hdone x hx).1, rfl⟩, (hdone x hx).2⟩
    · obtain ⟨x, hx, rfl⟩ := (hkeeps.records r).mp hr
      exact ⟨x, hall rfl x hx hlt, rfl⟩
  · refine (hkeeps.processKnownRoots_yields (T := True) (P := ∅) fun _ => ?_).returns trivial
    rw [hnew]
    refine ⟨hsafe.electable (Nat.succ_pos _), Election.given_new .., ?_⟩
    rintro a ⟨_, _, _, -, -, ⟨r, hr, -⟩, -⟩
    exact hr

open TwoOrders in
theorem Reachable.frame_ladder_twoOrders : ∃ (p : Poset Solo.caches) (A : Finset EventID) (top : ℕ),
    Reachable stored config A p ∧ p.atropoi = [first.hash, second.hash] ∧
    p.Ladder config p.epochState A top ∧ 4 ≤ top := by
  obtain ⟨p, A, hreachable, hatropoi, hroots⟩ := exists_reachable
  obtain ⟨-, ⟨top, hladder⟩, -⟩ := hreachable.frame_ladder
  have hne : (p.roots.getFrameRoots 4).1 ≠ [] := by
    intro hnil
    simp [hnil] at hroots
  exact ⟨p, A, top, hreachable, hatropoi, hladder, ((hladder.frames 4).mp hne).2⟩

end Poset

end Lachesis
