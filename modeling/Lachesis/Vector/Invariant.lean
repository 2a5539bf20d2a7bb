import Lachesis.Vector.HighestBefore

/-!
# What the index stores

`Snapshot` is the content of the index, the caches taken away. `Describes` says that a snapshot is
the one of a set of events: branches are chains, the clocks of every event say what it sees, and
the lowest events that see it are noted on every event. Adding an event whose parents are stored
extends the set; flushing and dropping move between the set that is stored and the one that is
flushed.
-/

namespace Lachesis

open Lachesis.Core

/-- The content of an index. -/
structure Snapshot where
  seqs : EventID → Option HighestBeforeSeq
  times : EventID → Option HighestBeforeTime
  after : EventID → Option LowestAfterSeq
  branch : EventID → Option ℕ
  bi : BranchesInfo

namespace Snapshot

def br (s : Snapshot) (x : EventID) : ℕ := (s.branch x).getD 0

def vecs (s : Snapshot) (x : EventID) : BeforeVecs :=
  ⟨(s.seqs x).getD (.new 0), (s.times x).getD (.new 0)⟩

end Snapshot

/-- On `x` is noted, for every branch, the lowest event of `S` there that sees it. -/
def After (G : EventDag) (S : Set EventID) (br : EventID → ℕ) (x : EventID)
    (a : LowestAfterSeq) : Prop :=
  ∀ b, (a.get b = 0 ∧ ∀ y ∈ S, br y = b → ¬ G.Sees y x) ∨
    ∃ y ∈ S, br y = b ∧ G.Sees y x ∧ a.get b = G.seq y ∧
      ∀ z ∈ S, br z = b → G.Sees z x → G.seq y ≤ G.seq z

/-- The content of an index to which the events of `S` were added. -/
structure Snapshot.Describes (V : Validators) (G : EventDag)
    (time : EventID → Timestamp) (S : Set EventID) (s : Snapshot) : Prop where
  branches : BranchInv V G S s.br s.bi
  branch_isSome : ∀ x, (s.branch x).isSome ↔ x ∈ S
  seqs_isSome : ∀ x, (s.seqs x).isSome ↔ x ∈ S
  before : ∀ x ∈ S, Before V G time s.br s.bi x (s.vecs x)
  times_isSome : ∀ x ∈ S, (s.times x).isSome
  after : ∀ x ∈ S, ∃ a, s.after x = some a ∧ After G S s.br x a

/-! ### A new event -/

section

variable {V : Validators} {G : EventDag} {S : Set EventID} {br : EventID → ℕ}
variable {bi bi' : BranchesInfo} {time : EventID → Timestamp} {id x : EventID} {b : ℕ}
variable {a : LowestAfterSeq}

lemma After.get_ne_zero_iff (h : After G S br x a) (hpos : ∀ y ∈ S, 0 < G.seq y) :
    a.get b ≠ 0 ↔ ∃ y ∈ S, br y = b ∧ G.Sees y x := by
  rcases h b with ⟨h₀, hno⟩ | ⟨y, hy, hyb, hyx, heq, -⟩
  · exact ⟨fun hne => absurd h₀ hne, fun ⟨y, hy, hyb, hyx⟩ => absurd hyx (hno y hy hyb)⟩
  · exact ⟨fun _ => ⟨y, hy, hyb, hyx⟩, fun _ => heq ▸ (hpos y hy).ne'⟩

lemma Before.assigned (hS : G.Valid S) (hid : id ∉ S) (hx : x ∈ S)
    (ha : BranchInv.Assigned V G S br bi id bi' b) {v : BeforeVecs}
    (h : Before V G time br bi x v) : Before V G time (Function.update br id b) bi' x v := by
  have hcount : bi.count ≤ bi'.count := by
    rw [ha.count_eq]
    exact le_max_left _ _
  have howner : ∀ b' < v.seq.size, bi'.owner V b' = bi.owner V b' := by
    intro b' hb'
    rw [BranchesInfo.owner, BranchesInfo.owner, ha.creatorOf_eq b' (hb'.trans_le h.size_le)]
  have hset : ∀ b', {y | G.Sees x y ∧ Function.update br id b y = b'}
      = {y | G.Sees x y ∧ br y = b'} := by
    intro b'
    ext y
    simp only [Set.mem_ofPred_eq]
    refine and_congr_right fun hy => ?_
    rw [BranchInv.update_br hid (hS.sees_mem hx hy)]
  refine ⟨h.le_size, h.size_le.trans hcount, fun b' hb' hs => ?_, fun b' hb' => ?_⟩
  · exact h.fork b' hb' (howner b' hb' ▸ hs)
  · rw [hset]
    exact h.summary b' fun hlt => howner b' hlt ▸ hb' hlt

/-- The first event of a branch that sees `x` is recorded. -/
lemma After.insert_event (hid : id ∉ S) (hbelow : ∀ y ∈ S, br y = b → G.seq y < G.seq id)
    (hpos : ∀ y ∈ S, 0 < G.seq y) (hfits : G.seq id < 2 ^ 32) (h : After G S br x a)
    [Decidable (G.Sees id x)] :
    After G (insert id S) (Function.update br id b) x
      (if G.Sees id x ∧ a.get b = 0 then a.set b (G.seq id) else a) := by
  have hbr : ∀ y ∈ S, Function.update br id b y = br y := fun y hy => BranchInv.update_br hid hy
  intro b'
  by_cases hbb : b' = b
  · subst hbb
    by_cases h₀ : a.get b' = 0
    · have hno : ∀ y ∈ S, br y = b' → ¬ G.Sees y x := by
        intro y hy hyb hyx
        exact (h.get_ne_zero_iff hpos).mpr ⟨y, hy, hyb, hyx⟩ h₀
      by_cases hsees : G.Sees id x
      · refine Or.inr ⟨id, Set.mem_insert _ _, by simp, hsees, ?_, ?_⟩
        · rw [if_pos ⟨hsees, h₀⟩, LowestAfterSeq.get_set _ _ _ hfits, if_pos rfl]
        · rintro z (rfl | hz) hzb hzx
          · exact le_rfl
          · exact absurd hzx (hno z hz (hbr z hz ▸ hzb))
      · refine Or.inl ⟨by rw [if_neg fun h => hsees h.1, h₀], ?_⟩
        rintro y (rfl | hy) hyb
        · exact hsees
        · exact hno y hy (hbr y hy ▸ hyb)
    · rw [if_neg fun h => h₀ h.2]
      rcases h b' with ⟨h₀', -⟩ | ⟨y, hy, hyb, hyx, heq, hmin⟩
      · exact absurd h₀' h₀
      · refine Or.inr ⟨y, Set.mem_insert_of_mem _ hy, by rw [hbr y hy, hyb], hyx, heq, ?_⟩
        rintro z (rfl | hz) hzb hzx
        · exact (hbelow y hy hyb).le
        · exact hmin z hz (hbr z hz ▸ hzb) hzx
  · have hget : (if G.Sees id x ∧ a.get b = 0 then a.set b (G.seq id) else a).get b' = a.get b' := by
      split_ifs
      · rw [LowestAfterSeq.get_set _ _ _ hfits, if_neg hbb]
      · rfl
    rw [hget]
    have hne : ∀ z ∈ insert id S, Function.update br id b z = b' → z ∈ S ∧ br z = b' := by
      rintro z (rfl | hz) hzb
      · rw [Function.update_self] at hzb
        exact absurd hzb.symm hbb
      · exact ⟨hz, hbr z hz ▸ hzb⟩
    rcases h b' with ⟨h₀, hno⟩ | ⟨y, hy, hyb, hyx, heq, hmin⟩
    · exact Or.inl ⟨h₀, fun y hy hyb => hno y (hne y hy hyb).1 (hne y hy hyb).2⟩
    · exact Or.inr ⟨y, Set.mem_insert_of_mem _ hy, by rw [hbr y hy, hyb], hyx, heq,
        fun z hz hzb => hmin z (hne z hz hzb).1 (hne z hz hzb).2⟩

lemma After.new (hS : G.Valid S) (hid : id ∉ S) (hfits : G.seq id < 2 ^ 32) (size : ℕ) :
    After G (insert id S) (Function.update br id b) id
      ((LowestAfterSeq.new size).set b (G.seq id)) := by
  have hno : ∀ y ∈ S, ¬ G.Sees y id := fun y hy hyid => hid (hS.sees_mem hy hyid)
  intro b'
  rw [LowestAfterSeq.get_set _ _ _ hfits]
  split_ifs with hbb
  · refine Or.inr ⟨id, Set.mem_insert _ _, by simp [hbb], ForkDag.Sees.refl id, rfl, ?_⟩
    rintro z (rfl | hz) - hzid
    · exact le_rfl
    · exact absurd hzid (hno z hz)
  · refine Or.inl ⟨LowestAfterSeq.get_new _ _, ?_⟩
    rintro y (rfl | hy) hyb
    · rw [Function.update_self] at hyb
      exact absurd hyb.symm hbb
    · exact hno y hy

open Classical in
/-- `s'` is `s` with the event `id` added: its branch is `b` and its clocks are `v`. -/
structure Snapshot.Extends (G : EventDag) (S : Set EventID) (s : Snapshot)
    (id : EventID) (b : ℕ) (v : BeforeVecs) (s' : Snapshot) : Prop where
  seqs : s'.seqs = Function.update s.seqs id (some v.seq)
  times : s'.times = Function.update s.times id (some v.time)
  branch : s'.branch = Function.update s.branch id (some b)
  after_self : ∃ size, s'.after id = some ((LowestAfterSeq.new size).set b (G.seq id))
  after : ∀ x ∈ S, ∀ a, s.after x = some a →
    s'.after x = some (if G.Sees id x ∧ a.get b = 0 then a.set b (G.seq id) else a)

namespace Snapshot.Describes

variable {s s' : Snapshot} {v : BeforeVecs}

/-- An event with right clocks on a right branch extends what a snapshot describes. -/
theorem insert_event (h : s.Describes V G time S) (hS : G.Valid (insert id S)) (hS₀ : G.Valid S)
    (hid : id ∉ S) (hfits : G.seq id < 2 ^ 32) (hx : s.Extends G S id b v s')
    (ha : BranchInv.Assigned V G S s.br s.bi id s'.bi b)
    (hv : Before V G time (Function.update s.br id b) s'.bi id v) :
    s'.Describes V G time (insert id S) := by
  classical
  have hbr : s'.br = Function.update s.br id b := by
    funext x
    rw [Snapshot.br, hx.branch, Function.update_apply, Function.update_apply]
    split_ifs <;> rfl
  have hne : ∀ x ∈ S, x ≠ id := fun x hxS hxid => hid (hxid ▸ hxS)
  -- what is above the new event on its branch would have been stored after it
  have hbelow : ∀ y ∈ S, s.br y = b → G.seq y < G.seq id := by
    intro y hy hyb
    by_contra hlt
    refine hid (hS₀.sees_mem hy (ha.inv.sees_of_seq_le hS (Set.mem_insert _ _)
      (Set.mem_insert_of_mem _ hy) ?_ (by omega)))
    rw [Function.update_self, BranchInv.update_br hid hy, hyb]
  have hvecs : ∀ x, s'.vecs x = if x = id then v else s.vecs x := by
    intro x
    rw [Snapshot.vecs, hx.seqs, hx.times, Function.update_apply, Function.update_apply]
    split_ifs <;> rfl
  refine ⟨hbr ▸ ha.inv, fun x => ?_, fun x => ?_, ?_, ?_, ?_⟩
  · rw [hx.branch, Function.update_apply, Set.mem_insert_iff, ← h.branch_isSome x]
    split_ifs with heq <;> simp [heq]
  · rw [hx.seqs, Function.update_apply, Set.mem_insert_iff, ← h.seqs_isSome x]
    split_ifs with heq <;> simp [heq]
  · rintro x (rfl | hxS)
    · rwa [hvecs, if_pos rfl, hbr]
    · rw [hvecs, if_neg (hne x hxS), hbr]
      exact (h.before x hxS).assigned hS₀ hid hxS ha
  · rintro x (rfl | hxS)
    · rw [hx.times, Function.update_self]
      rfl
    · rw [hx.times, Function.update_of_ne (hne x hxS)]
      exact h.times_isSome x hxS
  · rw [hbr]
    rintro x (rfl | hxS)
    · obtain ⟨size, hsize⟩ := hx.after_self
      exact ⟨_, hsize, After.new hS₀ hid hfits size⟩
    · obtain ⟨a, ha, hafter⟩ := h.after x hxS
      exact ⟨_, hx.after x hxS a ha, hafter.insert_event hid hbelow hS₀.seq_pos hfits⟩

end Snapshot.Describes

end

/-! ### The content of an index -/

def VecTables.content (db : VecTables) (V : Validators) : Snapshot where
  seqs id := db.highestBeforeSeq[id]?
  times id := db.highestBeforeTime[id]?
  after id := db.lowestAfterSeq[id]?
  branch id := db.eventBranch[id]?
  bi := db.branchesInfo[Index.branchesInfoKey]?.getD (newInitialBranchesInfo V)

namespace Index

variable {C : VecCaches}

/-- The content of the index as its readers see it. -/
def current (vi : Index C) : Snapshot where
  seqs := vi.highestBeforeSeq.table.get
  times := vi.highestBeforeTime.table.get
  after := vi.lowestAfterSeq.table.get
  branch := vi.eventBranch.get
  bi := vi.loadedBranches

/-- The content of the index that is flushed. -/
def flushed (vi : Index C) : Snapshot := vi.persisted.content vi.validators

/-- `vi'` differs from `vi` at most in what is cached. -/
structure Same (vi vi' : Index C) : Prop where
  validators : vi'.validators = vi.validators
  getEvent : vi'.getEvent = vi.getEvent
  current : vi'.current = vi.current
  flushed : vi'.flushed = vi.flushed
  bi : ∀ bi, vi.bi = some bi → vi'.bi = some bi
  storedEvents : vi'.storedEvents = vi.storedEvents
  forklessCauseCache : vi'.forklessCauseCache = vi.forklessCauseCache

lemma Same.refl (vi : Index C) : vi.Same vi := ⟨rfl, rfl, rfl, rfl, fun _ h => h, rfl, rfl⟩

lemma Same.trans {vi vi' vi'' : Index C} (h : vi.Same vi') (h' : vi'.Same vi'') : vi.Same vi'' :=
  ⟨h'.validators.trans h.validators, h'.getEvent.trans h.getEvent, h'.current.trans h.current,
    h'.flushed.trans h.flushed, fun bi hbi => h'.bi bi (h.bi bi hbi),
    h'.storedEvents.trans h.storedEvents, h'.forklessCauseCache.trans h.forklessCauseCache⟩

/-! ### Reads -/

section Reads

variable (vi : Index C) (id : EventID)

lemma getHighestBeforeSeq_returns :
    Returns (getHighestBeforeSeq id) vi fun r vi' => r = vi.current.seqs id ∧ vi.Same vi' := by
  refine ⟨_, _, rfl, vi.highestBeforeSeq.get_fst id, ⟨rfl, rfl, ?_, ?_, fun _ h => h, rfl, rfl⟩⟩
  · simp only [current, vi.highestBeforeSeq.get_snd id]
    rfl
  · simp only [flushed, persisted, vi.highestBeforeSeq.get_snd id]

lemma getHighestBeforeTime_returns :
    Returns (getHighestBeforeTime id) vi fun r vi' => r = vi.current.times id ∧ vi.Same vi' := by
  refine ⟨_, _, rfl, vi.highestBeforeTime.get_fst id, ⟨rfl, rfl, ?_, ?_, fun _ h => h, rfl, rfl⟩⟩
  · simp only [current, vi.highestBeforeTime.get_snd id]
    rfl
  · simp only [flushed, persisted, vi.highestBeforeTime.get_snd id]

lemma getLowestAfterSeq_returns :
    Returns (getLowestAfterSeq id) vi fun r vi' => r = vi.current.after id ∧ vi.Same vi' := by
  refine ⟨_, _, rfl, vi.lowestAfterSeq.get_fst id, ⟨rfl, rfl, ?_, ?_, fun _ h => h, rfl, rfl⟩⟩
  · simp only [current, vi.lowestAfterSeq.get_snd id]
    rfl
  · simp only [flushed, persisted, vi.lowestAfterSeq.get_snd id]

lemma getEventBranchID_returns (h : (vi.current.branch id).isSome) :
    Returns (getEventBranchID id) vi fun r vi' => r = vi.current.br id ∧ vi' = vi := by
  obtain ⟨b, hb⟩ := Option.isSome_iff_exists.mp h
  refine Returns.get_bind ?_
  have hget : _ = some b := hb
  simp only [current] at hget
  rw [hget]
  exact Returns.pure ⟨by rw [Snapshot.br, hb]; rfl, rfl⟩

lemma initBranchesInfo_returns :
    Returns initBranchesInfo vi fun _ vi' => vi'.bi = some vi.current.bi ∧ vi.Same vi' := by
  refine Returns.modify ⟨rfl, rfl, rfl, rfl, rfl, fun bi hbi => ?_, rfl, rfl⟩
  simp [loadedBranches, hbi]

lemma branches_returns {bi : BranchesInfo} (h : vi.bi = some bi) :
    Returns branches vi fun r vi' => r = bi ∧ vi' = vi := by
  refine Returns.get_bind ?_
  rw [h]
  exact Returns.pure ⟨rfl, rfl⟩

end Reads

/-! ### The walk -/

open Classical in
/-- The index in the middle of the walk for a new event numbered `seq` on the branch `b`: the events
of `M` are known to be seen from the branch. -/
structure Walked (vi : Index C) (S : Set EventID) (seq b : ℕ) (M : Set EventID) (vi' : Index C) :
    Prop where
  frame : vi' = { vi with lowestAfterSeq := vi'.lowestAfterSeq }
  underlying : vi'.lowestAfterSeq.table.underlying = vi.lowestAfterSeq.table.underlying
  after : ∀ x ∈ S, ∀ a, vi.current.after x = some a →
    vi'.current.after x = some (if x ∈ M ∧ a.get b = 0 then a.set b seq else a)
  marked : ∀ x ∈ S, ∀ a, vi.current.after x = some a → a.get b ≠ 0 → x ∈ M

variable {a : LowestAfterSeq}

section Walk

variable {vi vi' : Index C} {S M : Set EventID} {seq b : ℕ} {x : EventID}

lemma Walked.start (hM : ∀ x ∈ S, ∀ a, vi.current.after x = some a → (x ∈ M ↔ a.get b ≠ 0)) :
    vi.Walked S seq b M vi where
  frame := rfl
  underlying := rfl
  after x hx a ha := by
    rw [ha, if_neg fun h => (hM x hx a ha).mp h.1 h.2]
  marked x hx a ha h := (hM x hx a ha).mpr h

lemma Walked.read (h : vi.Walked S seq b M vi') (x : EventID) :
    Returns (getLowestAfterSeq x) vi' fun r vi'' =>
      r = vi'.current.after x ∧ vi.Walked S seq b M vi'' := by
  refine ⟨_, _, rfl, vi'.lowestAfterSeq.get_fst x, ⟨?_, ?_, fun y hy c hc => ?_, h.marked⟩⟩
  · rw [h.frame]
  · rw [← h.underlying]
    simp only [vi'.lowestAfterSeq.get_snd x]
  · rw [← h.after y hy c hc]
    simp only [current, vi'.lowestAfterSeq.get_snd x]

section

variable (h : vi.Walked S seq b M vi') (hx : x ∈ S) (ha : vi.current.after x = some a)
include h hx ha

lemma Walked.onWalk_old (hseq : 0 < seq) (hfits : seq < 2 ^ 32) (hxM : x ∈ M) :
    Returns (onWalk seq b x) vi' fun r vi'' => r = false ∧ vi.Walked S seq b M vi'' := by
  classical
  have hafter := h.after x hx a ha
  refine (h.read x).bind ?_
  rintro _ vi'' ⟨rfl, h''⟩
  rw [hafter, Option.getD_some, if_neg]
  · exact Returns.pure ⟨rfl, h''⟩
  · split_ifs with hget
    · rw [LowestAfterSeq.get_set _ _ _ hfits, if_pos rfl]
      omega
    · exact fun h₀ => hget ⟨hxM, h₀⟩

/-- An event that was not walked yet gets its entry. -/
lemma Walked.onWalk_new (hxM : x ∉ M) :
    Returns (onWalk seq b x) vi' fun r vi'' => r = true ∧ vi.Walked S seq b (insert x M) vi'' := by
  classical
  have h₀ : a.get b = 0 := by
    by_contra hne
    exact hxM (h.marked x hx a ha hne)
  have hafter : vi'.current.after x = some a := by
    rw [h.after x hx a ha, if_neg fun h => hxM h.1]
  refine (h.read x).bind ?_
  rintro _ vi'' ⟨rfl, h''⟩
  rw [hafter, Option.getD_some, if_pos h₀]
  refine Returns.bind (Returns.modify (Q := fun _ => vi.Walked S seq b (insert x M)) ?_)
    fun _ _ h => Returns.pure ⟨rfl, h⟩
  refine ⟨?_, h''.underlying, fun y hy c hc => ?_,
    fun y hy c hc hne => Set.mem_insert_of_mem _ (h''.marked y hy c hc hne)⟩
  · conv_lhs => rw [h''.frame]
  · simp only [current, CachedTable.set, Flushable.get_put]
    by_cases hyx : y = x
    · subst hyx
      obtain rfl : a = c := Option.some.inj (ha.symm.trans hc)
      rw [if_pos rfl, if_pos ⟨Set.mem_insert _ _, h₀⟩]
    · have hmem : y ∈ insert x M ↔ y ∈ M := by simp [hyx]
      rw [if_neg hyx]
      simp only [hmem]
      exact h''.after y hy c hc

lemma Walked.dfsStep (hseq : 0 < seq) (hfits : seq < 2 ^ 32) {ev : Event}
    (hev : vi.getEvent x = some ev) :
    (x ∈ M → ∃ vi'', dfsStep (onWalk seq b) vi' x = .ok (vi'', []) ∧ vi.Walked S seq b M vi'') ∧
    (x ∉ M → ∃ vi'', dfsStep (onWalk seq b) vi' x = .ok (vi'', ev.parents) ∧
      vi.Walked S seq b (insert x M) vi'') := by
  refine ⟨fun hxM => ?_, fun hxM => ?_⟩
  · obtain ⟨_, vi'', hrun, rfl, h''⟩ := h.onWalk_old hx ha hseq hfits hxM
    exact ⟨vi'', by simp only [Index.dfsStep, hrun], h''⟩
  · obtain ⟨_, vi'', hrun, rfl, h''⟩ := h.onWalk_new hx ha hxM
    have hget : vi''.getEvent x = some ev := by rw [h''.frame]; exact hev
    exact ⟨vi'', by simp only [Index.dfsStep, hrun, hget], h''⟩

end

lemma length_parents_eventDag (vi : Index C) (x : EventID) :
    ((eventDag vi.getEvent).parents x).length = vi.parentsLength x := by
  simp only [eventDag, parentsLength]
  cases vi.getEvent x <;> rfl

/-- The walk ends, and what the parents of the new event see has become known. -/
lemma dfsSubgraph_returns {e : Event} (hseq : 0 < seq) (hfits : seq < 2 ^ 32)
    (hev : ∀ x ∈ S, ∃ ev, vi.getEvent x = some ev)
    (hcl : ∀ x ∈ S, ∀ p ∈ (eventDag vi.getEvent).parents x, p ∈ S)
    (hstored : ∀ x ∈ S, x ∈ vi.storedEvents) (hafter : ∀ x ∈ S, ∃ a, vi.current.after x = some a)
    (hparents : ∀ p ∈ e.parents, p ∈ S)
    (hM : ∀ x ∈ S, ∀ a, vi.current.after x = some a → (x ∈ M ↔ a.get b ≠ 0))
    (hMcl : ∀ x ∈ M, ∀ p ∈ (eventDag vi.getEvent).parents x, p ∈ M) :
    Returns (dfsSubgraph e (onWalk seq b)) vi fun _ =>
      vi.Walked S seq b (M ∪ {y | ∃ p ∈ e.parents, (eventDag vi.getEvent).Sees p y}) := by
  classical
  let D := vi.storedEvents.toFinset.filter (· ∈ S)
  have hD : ∀ x, x ∈ D ↔ x ∈ S := fun x => by simpa [D] using hstored x
  have hbound : ∑ x ∈ D, ((eventDag vi.getEvent).parents x).length
      ≤ (vi.storedEvents.map vi.parentsLength).sum := by
    rw [Finset.sum_list_map_count]
    refine (Finset.sum_le_sum_of_subset (Finset.filter_subset _ _)).trans
      (Finset.sum_le_sum fun x hx => ?_)
    rw [length_parents_eventDag]
    exact Nat.le_mul_of_pos_left _ (List.count_pos_iff.mpr (List.mem_toFinset.mp hx))
  obtain ⟨vi', hrun, h⟩ := walk_marks Fault.outOfFuel (vi.Walked S seq b) (D := D)
    (n := vi.walkBound e)
    (fun x hx p hp => (hD p).mpr (hcl x ((hD x).mp hx) p hp))
    (fun M' s x hx hxM hs => by
      obtain ⟨a, ha⟩ := hafter x ((hD x).mp hx)
      obtain ⟨ev, hev⟩ := hev x ((hD x).mp hx)
      exact (hs.dfsStep ((hD x).mp hx) ha hseq hfits hev).1 hxM)
    (fun M' s x hx hxM hs => by
      obtain ⟨a, ha⟩ := hafter x ((hD x).mp hx)
      obtain ⟨ev, hev⟩ := hev x ((hD x).mp hx)
      rw [parents_eventDag hev]
      exact (hs.dfsStep ((hD x).mp hx) ha hseq hfits hev).2 hxM)
    e.parents.reverse (fun x hx => (hD x).mpr (hparents x (List.mem_reverse.mp hx)))
    hMcl (Walked.start hM) (by rw [walkBound, List.length_reverse]; omega)
  refine ⟨(), vi', congrArg (Except.map ((), ·)) hrun, ?_⟩
  simp only [List.mem_reverse] at h
  exact h

end Walk

/-! ### Adding an event -/

section Add

variable {vi : Index C} {S : Set EventID} {e : Event} {getEvent : GetEvent}
variable {V : Validators} {time : EventID → Timestamp}

lemma fillGlobalBranchID_returns (hV : vi.validators = V) (hbi : vi.bi = some vi.current.bi)
    (h : vi.current.Describes V (eventDag getEvent) time S)
    (hS : (eventDag getEvent).Valid (insert e.hash S)) (he : getEvent e.hash = some e)
    (hid : e.hash ∉ S) (hc : e.creator ∈ V.members) (hp : ∀ p ∈ e.parents, p ∈ S) :
    Returns (fillGlobalBranchID e (V.getIdx e.creator)) vi fun b vi' =>
      ∃ bi', vi' = { vi with bi := some bi' } ∧
        BranchInv.Assigned V (eventDag getEvent) S vi.current.br vi.current.bi e.hash bi' b := by
  obtain ⟨bi', b, hassign, ha⟩ := h.branches.assign_spec hS he hid hc
    fun p hsp => hp p (Event.selfParent_mem hsp)
  refine (vi.branches_returns hbi).bind ?_
  rintro _ vi ⟨rfl, rfl⟩
  refine Returns.get_bind ?_
  rw [if_neg]
  · have hself : Returns (selfParentBranchID e) vi
        fun r vi' => r = e.selfParent.map vi.current.br ∧ vi' = vi := by
      unfold selfParentBranchID
      cases hsp : e.selfParent with
      | none => exact Returns.pure ⟨rfl, rfl⟩
      | some p =>
        refine Returns.map ((vi.getEventBranchID_returns p ?_).mono ?_)
        · exact (h.branch_isSome p).mpr (hp p (Event.selfParent_mem hsp))
        · rintro _ _ ⟨rfl, rfl⟩
          exact ⟨rfl, rfl⟩
    refine hself.bind ?_
    rintro _ vi ⟨rfl, rfl⟩
    refine Returns.lift_bind hassign ?_
    refine Returns.modify_bind ?_
    exact Returns.pure ⟨bi', rfl, ha⟩
  · have hlen := h.branches.length_lastSeq
    have hle := h.branches.len_le
    rw [hV]
    unfold BranchesInfo.count at hlen hle
    omega

lemma loadParent_returns (vi : Index C) {p : EventID} (hb : (vi.current.branch p).isSome)
    (hs : (vi.current.seqs p).isSome) :
    Returns (loadParent p) vi fun r vi' => r = vi.current.vecs p ∧ vi.Same vi' := by
  obtain ⟨seq, hseq⟩ := Option.isSome_iff_exists.mp hs
  refine (vi.getEventBranchID_returns p hb).bind ?_
  rintro _ vi ⟨-, rfl⟩
  refine (vi.getHighestBeforeSeq_returns p).bind ?_
  rintro _ vi₁ ⟨rfl, h₁⟩
  refine (vi₁.getHighestBeforeTime_returns p).bind ?_
  rintro _ vi₂ ⟨rfl, h₂⟩
  rw [h₁.current, hseq]
  exact Returns.pure ⟨by rw [Snapshot.vecs, hseq]; rfl, h₁.trans h₂⟩

lemma loadParents_returns (vi : Index C) {ids : List EventID}
    (hids : ∀ p ∈ ids, (vi.current.branch p).isSome ∧ (vi.current.seqs p).isSome) :
    Returns (ids.mapM loadParent) vi fun r vi' => r = ids.map vi.current.vecs ∧ vi.Same vi' := by
  refine Returns.mapM vi.current.vecs vi.Same (Same.refl vi) fun p hp vi' h => ?_
  refine (vi'.loadParent_returns ?_ ?_).mono ?_
  · rw [h.current]
    exact (hids p hp).1
  · rw [h.current]
    exact (hids p hp).2
  · rintro _ _ ⟨rfl, h'⟩
    exact ⟨by rw [h.current], h.trans h'⟩

open Classical in
lemma Walked.extends_after {vi' : Index C} {G : EventDag} {b : ℕ} {M : Set EventID}
    (h : vi.Walked S e.seq b (M ∪ {y | ∃ p ∈ G.parents e.hash, G.Sees p y}) vi') (hid : e.hash ∉ S)
    (hM : ∀ x ∈ S, ∀ a, vi.current.after x = some a → (x ∈ M ↔ a.get b ≠ 0)) {x : EventID}
    (hx : x ∈ S) (ha : vi.current.after x = some a) :
    vi'.current.after x = some (if G.Sees e.hash x ∧ a.get b = 0 then a.set b e.seq else a) := by
  have hiff : (x ∈ M ∪ {y | ∃ p ∈ G.parents e.hash, G.Sees p y} ∧ a.get b = 0) ↔
      G.Sees e.hash x ∧ a.get b = 0 := by
    refine and_congr_left fun h₀ => ?_
    have hxM : x ∉ M := fun hxM => (hM x hx a ha).mp hxM h₀
    have hne : x ≠ e.hash := fun heq => hid (heq ▸ hx)
    rw [ForkDag.sees_iff]
    simp [hxM, hne]
  rw [h.after x hx a ha]
  simp only [hiff]

lemma storeEvent_returns (vi : Index C) (id : EventID) (v : BeforeVecs) (a : LowestAfterSeq)
    (b : ℕ) :
    Returns (do setHighestBefore id v; setLowestAfter id a; setEventBranchID id b) vi
      fun _ vi' => vi'.validators = vi.validators ∧ vi'.getEvent = vi.getEvent ∧
        vi'.current = ⟨Function.update vi.current.seqs id (some v.seq),
          Function.update vi.current.times id (some v.time),
          Function.update vi.current.after id (some a),
          Function.update vi.current.branch id (some b), vi.current.bi⟩ ∧
        vi'.flushed = vi.flushed ∧ vi'.forklessCauseCache = vi.forklessCauseCache := by
  refine ⟨_, _, rfl, rfl, rfl, ?_, rfl, rfl⟩
  simp only [current, CachedTable.set, Snapshot.mk.injEq]
  refine ⟨?_, ?_, ?_, ?_, rfl⟩ <;>
  · funext x
    rw [Flushable.get_put, Function.update_apply]

lemma fillEventVectors_returns {maxParents : ℕ} (hV : vi.validators = V)
    (hg : ∀ x ∈ S, vi.getEvent x = getEvent x) (hbi : vi.bi = some vi.current.bi)
    (h : vi.current.Describes V (eventDag getEvent) time S)
    (hS : CheckedSet maxParents getEvent (insert e.hash S)) (hS₀ : CheckedSet maxParents getEvent S)
    (he : Checked maxParents getEvent e) (htime : time e.hash = e.claimedTime)
    (hid : e.hash ∉ S) (hc : e.creator ∈ V.members) (hp : ∀ p ∈ e.parents, p ∈ S) :
    Returns (fillEventVectors e) vi fun _ vi' =>
      vi'.validators = V ∧ vi'.getEvent = vi.getEvent ∧
      vi'.current.Describes V (eventDag getEvent) time (insert e.hash S) ∧
      vi'.flushed = vi.flushed ∧ vi'.forklessCauseCache = vi.forklessCauseCache := by
  have hfits : e.seq < 2 ^ 32 := by
    have := he.seq_lt
    unfold Basiccheck.maxIndex at this
    omega
  have hseq := seq_eventDag he.stored
  subst hV
  refine Returns.get_bind ?_
  refine (vi.branches_returns hbi).bind ?_
  rintro _ vi ⟨rfl, rfl⟩
  refine (fillGlobalBranchID_returns rfl hbi h hS.valid he.stored hid hc hp).bind ?_
  rintro b _ ⟨bi', rfl, ha⟩
  have hstored : ∀ p ∈ e.parents, (vi.current.branch p).isSome ∧ (vi.current.seqs p).isSome :=
    fun p hpe => ⟨(h.branch_isSome p).mpr (hp p hpe), (h.seqs_isSome p).mpr (hp p hpe)⟩
  refine (loadParents_returns { vi with bi := some bi' } hstored).bind ?_
  rintro _ vi₁ ⟨rfl, h₁⟩
  refine (vi₁.branches_returns (h₁.bi bi' rfl)).bind ?_
  rintro bi' vi₁ ⟨rfl, rfl⟩
  obtain ⟨v, hv, hbefore⟩ := eventVecs_spec vi.current.bi.count he.stored htime hfits
    ha.inv hS.valid (Set.mem_insert _ _) (by rw [Function.update_self]; exact ha.count_eq)
    fun p hpe => (h.before p (hp p hpe)).assigned hS₀.valid hid (hp p hpe) ha
  rw [Function.update_self] at hv
  refine Returns.lift_bind hv ?_
  have hcur : vi₁.current = { vi.current with bi := bi' } := h₁.current
  -- the events known to be seen from the branch before the walk
  let M : Set EventID := {x | ∃ y ∈ S, vi.current.br y = b ∧ (eventDag getEvent).Sees y x}
  have hM : ∀ x ∈ S, ∀ a, vi₁.current.after x = some a → (x ∈ M ↔ a.get b ≠ 0) := by
    intro x hx a hxa
    obtain ⟨a', hxa', hafter⟩ := h.after x hx
    rw [hcur] at hxa
    obtain rfl : a = a' := Option.some.inj (hxa.symm.trans hxa')
    exact (hafter.get_ne_zero_iff hS₀.valid.seq_pos).symm
  have hg₁ : ∀ x ∈ S, vi₁.getEvent x = getEvent x := fun x hx => by rw [h₁.getEvent, hg x hx]
  have hparents : ∀ x ∈ S, (eventDag vi₁.getEvent).parents x = (eventDag getEvent).parents x :=
    fun x hx => by simp only [eventDag, hg₁ x hx]
  have hsees : ∀ x ∈ S, ∀ y, (eventDag vi₁.getEvent).Sees x y ↔ (eventDag getEvent).Sees x y :=
    fun x hx y => ForkDag.sees_congr hS₀.valid.parents_mem hparents hx
  have hwalk : Returns (dfsSubgraph e (onWalk e.seq b)) vi₁ fun _ =>
      vi₁.Walked S e.seq b
        (M ∪ {y | ∃ p ∈ (eventDag getEvent).parents e.hash, (eventDag getEvent).Sees p y}) := by
    have hset : {y | ∃ p ∈ (eventDag getEvent).parents e.hash, (eventDag getEvent).Sees p y} =
        {y | ∃ p ∈ e.parents, (eventDag vi₁.getEvent).Sees p y} := by
      ext y
      rw [parents_eventDag he.stored]
      exact exists_congr fun p => and_congr_right fun hpe => (hsees p (hp p hpe) y).symm
    rw [hset]
    refine dfsSubgraph_returns he.seq_pos hfits ?_ ?_ ?_ ?_ hp hM ?_
    · intro x hx
      obtain ⟨ev, hev, -⟩ := hS₀.exists_event hx
      exact ⟨ev, hg₁ x hx ▸ hev⟩
    · intro x hx p hpx
      rw [hparents x hx] at hpx
      exact hS₀.valid.parents_mem x hx p hpx
    · intro x hx
      rw [h₁.storedEvents]
      exact Flushable.mem_keys ((h.branch_isSome x).mpr hx)
    · intro x hx
      obtain ⟨a, ha, -⟩ := h.after x hx
      exact ⟨a, by rw [hcur]; exact ha⟩
    · rintro x ⟨y, hy, hyb, hyx⟩ p hpx
      rw [hparents x (hS₀.valid.sees_mem hy hyx)] at hpx
      exact ⟨y, hy, hyb, hyx.trans (ForkDag.Sees.of_mem_parents hpx)⟩
  refine hwalk.bind ?_
  rintro _ vi₂ h₂
  refine (vi₂.storeEvent_returns e.hash _ _ b).mono ?_
  rintro _ vi₃ ⟨hV₃, hg₃, hcur₃, hflushed₃, hcache₃⟩
  have hcur₂ : vi₂.current = { vi.current with bi := bi', after := vi₂.current.after } := by
    have : vi₂.current = { vi₁.current with after := vi₂.current.after } := by
      rw [h₂.frame]
      rfl
    rw [this, hcur]
  have hflushed₂ : vi₂.flushed = vi₁.flushed := by
    simp only [flushed, persisted, h₂.underlying]
    rw [h₂.frame]
  refine ⟨?_, ?_, ?_, hflushed₃.trans (hflushed₂.trans h₁.flushed), ?_⟩
  · exact hV₃.trans ((congrArg validators h₂.frame).trans h₁.validators)
  · exact hg₃.trans ((congrArg Index.getEvent h₂.frame).trans h₁.getEvent)
  · rw [hcur₃, hcur₂]
    refine h.insert_event hS.valid hS₀.valid hid (hseq.symm ▸ hfits)
      ⟨rfl, rfl, rfl, ⟨vi.current.bi.count, ?_⟩, fun x hx a hxa => ?_⟩ ha hbefore
    · rw [hseq]
      exact Function.update_self ..
    · rw [hseq]
      have hne : x ≠ e.hash := fun heq => hid (heq ▸ hx)
      refine (Function.update_of_ne hne _ _).trans ?_
      exact h₂.extends_after hid hM hx (by rw [hcur]; exact hxa)
  · exact hcache₃.trans ((congrArg forklessCauseCache h₂.frame).trans h₁.forklessCauseCache)

end Add

/-! ### Flushing -/

section Flush

variable (vi : Index C)

/-- After a flush nothing is lost by dropping. -/
lemma flush_returns : Returns flush vi fun _ vi' =>
    vi'.validators = vi.validators ∧ vi'.getEvent = vi.getEvent ∧ vi'.current = vi.current ∧
      vi'.flushed = vi.current ∧ vi'.forklessCauseCache = vi.forklessCauseCache := by
  refine Returns.modify ⟨rfl, rfl, ?_, ?_, rfl⟩
  · simp only [current, CachedTable.flush, loadedBranches, Snapshot.mk.injEq]
    refine ⟨funext fun x => ?_, funext fun x => ?_, funext fun x => ?_, funext fun x => ?_, ?_⟩
    · exact Flushable.get_flush ..
    · exact Flushable.get_flush ..
    · exact Flushable.get_flush ..
    · exact Flushable.get_flush ..
    · cases vi.bi with
      | none => simp
      | some bi => rfl
  · simp only [current, flushed, persisted, VecTables.content, CachedTable.flush, loadedBranches,
      Flushable.underlying_flush, Snapshot.mk.injEq, true_and]
    cases vi.bi with
    | none => simp [Flushable.underlying_flush]
    | some bi => simp [Flushable.underlying_flush, Flushable.get_put]

/-- Dropping goes back to the last flush. -/
lemma dropNotFlushed_returns : Returns dropNotFlushed vi fun _ vi' =>
    vi'.validators = vi.validators ∧ vi'.getEvent = vi.getEvent ∧ vi'.current = vi.flushed ∧
      vi'.flushed = vi.flushed ∧ vi'.forklessCauseCache = vi.forklessCauseCache := by
  refine Returns.modify ?_
  split_ifs with h
  · simp only [notFlushedPairs, Nat.add_eq_zero_iff] at h
    obtain ⟨⟨⟨⟨hseq, htime⟩, hafter⟩, hbranch⟩, hbi⟩ := h
    refine ⟨rfl, rfl, ?_, rfl, rfl⟩
    simp only [current, flushed, persisted, VecTables.content, loadedBranches,
      Flushable.get_of_pairs hbi, Option.none_or, Snapshot.mk.injEq, and_true]
    exact ⟨funext (Flushable.get_of_pairs hseq), funext (Flushable.get_of_pairs htime),
      funext (Flushable.get_of_pairs hafter), funext (Flushable.get_of_pairs hbranch)⟩
  · refine ⟨rfl, rfl, ?_, rfl, rfl⟩
    simp only [current, flushed, persisted, VecTables.content, loadedBranches,
      CachedTable.dropNotFlushed, Option.none_or, Flushable.get_dropNotFlushed, Snapshot.mk.injEq,
      and_true]
    exact ⟨funext fun x => by simp, funext fun x => by simp, funext fun x => by simp,
      funext fun x => by simp⟩

end Flush

end Index

/-! ### The index as a whole -/

/-- `a` is forkless caused by `b`, the stakes added up in 64 bits. -/
def ForklessCaused (V : Validators) (G : EventDag) (a b : EventID) : Prop :=
  ¬ G.SeesFork a (G.creator b) ∧ V.quorum ≤ ∑ v ∈ G.relayers V.members a b, V.get v

/-- The claimed times of the events that `getEvent` knows. -/
def claimedTime (getEvent : GetEvent) (id : EventID) : Timestamp :=
  ((getEvent id).map (·.claimedTime)).getD 0

/-- An index to which the events of `S` were added, of which those of `S₀` are flushed. -/
structure Index.Inv {C : VecCaches} (maxParents : ℕ) (V : Validators)
    (getEvent : GetEvent) (S S₀ : Set EventID) (vi : Index C) : Prop where
  validators : vi.validators = V
  /-- The flushed events are known where events are read from. -/
  source : ∀ x ∈ S₀, vi.getEvent x = getEvent x
  checked : CheckedSet maxParents getEvent S
  flushed_checked : CheckedSet maxParents getEvent S₀
  subset : S₀ ⊆ S
  current : vi.current.Describes V (eventDag getEvent) (claimedTime getEvent) S
  flushed : vi.flushed.Describes V (eventDag getEvent) (claimedTime getEvent) S₀
  cached : C.forklessCause.All (fun q r => r = true ↔ ForklessCaused V (eventDag getEvent) q.1 q.2)
    vi.forklessCauseCache

namespace Index.Inv

variable {C : VecCaches} {maxParents : ℕ} {V : Validators} {getEvent : GetEvent}
variable {S S₀ : Set EventID} {vi vi' : Index C} {e : Event}

lemma same (h : vi.Inv maxParents V getEvent S S₀) (hs : vi.Same vi') :
    vi'.Inv maxParents V getEvent S S₀ where
  validators := hs.validators.trans h.validators
  source x hx := by rw [hs.getEvent, h.source x hx]
  checked := h.checked
  flushed_checked := h.flushed_checked
  subset := h.subset
  current := hs.current ▸ h.current
  flushed := hs.flushed ▸ h.flushed
  cached := hs.forklessCauseCache ▸ h.cached

/-- `NewIndex` over a database that describes the events of `S`. -/
theorem new {db : VecTables} {source : GetEvent} (hsource : ∀ x ∈ S, source x = getEvent x)
    (hS : CheckedSet maxParents getEvent S)
    (h : (db.content V).Describes V (eventDag getEvent) (claimedTime getEvent) S) :
    (Index.new V db source : Index C).Inv maxParents V getEvent S S where
  validators := rfl
  source := hsource
  checked := hS
  flushed_checked := hS
  subset := subset_rfl
  current := by
    have hcur : (Index.new V db source : Index C).current = db.content V := by
      simp only [Index.current, Index.new, CachedTable.wrap, loadedBranches, VecTables.content,
        Flushable.get_wrap, Option.none_or, Snapshot.mk.injEq, and_true]
      exact ⟨funext (Flushable.get_wrap _), funext (Flushable.get_wrap _),
        funext (Flushable.get_wrap _), funext (Flushable.get_wrap _)⟩
    exact hcur ▸ h
  flushed := h
  cached := Cache.all_empty

lemma describes_empty : (VecTables.empty.content V).Describes V (eventDag getEvent)
    (claimedTime getEvent) ∅ where
  branches := BranchInv.initial V _ _
  branch_isSome x := by simp [VecTables.content, VecTables.empty]
  seqs_isSome x := by simp [VecTables.content, VecTables.empty]
  before x hx := absurd hx (Set.notMem_empty x)
  times_isSome x hx := absurd hx (Set.notMem_empty x)
  after x hx := absurd hx (Set.notMem_empty x)

/-- `Index.Add` of an event whose parents are stored. -/
theorem add (h : vi.Inv maxParents V getEvent S S₀) (hknown : ∀ x ∈ S, vi.getEvent x = getEvent x)
    (he : Checked maxParents getEvent e)
    (hc : e.creator ∈ V.members) (hp : ∀ p ∈ e.parents, p ∈ S) :
    Returns (Index.add e) vi fun _ vi' =>
      vi'.Inv maxParents V getEvent (insert e.hash S) S₀ ∧ vi'.getEvent = vi.getEvent := by
  refine (vi.getHighestBeforeSeq_returns e.hash).bind ?_
  rintro _ vi₁ ⟨rfl, h₁⟩
  by_cases hid : e.hash ∈ S
  · obtain ⟨seq, hseq⟩ := Option.isSome_iff_exists.mp ((h.current.seqs_isSome e.hash).mpr hid)
    rw [hseq, Set.insert_eq_of_mem hid]
    exact Returns.pure ⟨h.same h₁, h₁.getEvent⟩
  · have hnone : vi.current.seqs e.hash = none := by
      rw [← Option.not_isSome_iff_eq_none, h.current.seqs_isSome]
      exact hid
    rw [hnone]
    refine (vi₁.initBranchesInfo_returns).bind ?_
    rintro _ vi₂ ⟨hbi, h₂⟩
    have hsame := h₁.trans h₂
    have hinv := h.same hsame
    have hins := h.checked.insert_event he hp
    refine (fillEventVectors_returns hinv.validators
      (fun x hx => by rw [hsame.getEvent, hknown x hx]) (h₂.current ▸ hbi) hinv.current
      hins h.checked he (by simp [claimedTime, he.stored]) hid hc hp).mono ?_
    rintro _ vi₃ ⟨hV, hg, hcur, hflushed, hcache⟩
    have hg' := hg.trans hsame.getEvent
    exact ⟨⟨hV, fun x hx => by rw [hg', h.source x hx], hins, h.flushed_checked,
      h.subset.trans (Set.subset_insert _ _), hcur, hflushed ▸ hinv.flushed,
      hcache ▸ hinv.cached⟩, hg'⟩

/-- `Index.Flush` -/
theorem flush (h : vi.Inv maxParents V getEvent S S₀)
    (hknown : ∀ x ∈ S, vi.getEvent x = getEvent x) : Returns Index.flush vi fun _ vi' =>
      vi'.Inv maxParents V getEvent S S ∧ vi'.getEvent = vi.getEvent := by
  refine vi.flush_returns.mono ?_
  rintro _ vi' ⟨hV, hg, hcur, hflushed, hcache⟩
  exact ⟨⟨hV.trans h.validators, fun x hx => by rw [hg, hknown x hx], h.checked, h.checked,
    subset_rfl, hcur ▸ h.current, hflushed ▸ h.current, hcache ▸ h.cached⟩, hg⟩

/-- `Index.DropNotFlushed` -/
theorem dropNotFlushed (h : vi.Inv maxParents V getEvent S S₀) :
    Returns Index.dropNotFlushed vi fun _ vi' =>
      vi'.Inv maxParents V getEvent S₀ S₀ ∧ vi'.getEvent = vi.getEvent := by
  refine vi.dropNotFlushed_returns.mono ?_
  rintro _ vi' ⟨hV, hg, hcur, hflushed, hcache⟩
  exact ⟨⟨hV.trans h.validators, fun x hx => by rw [hg, h.source x hx], h.flushed_checked,
    h.flushed_checked, subset_rfl, hcur ▸ h.flushed, hflushed ▸ h.flushed, hcache ▸ h.cached⟩, hg⟩

end Index.Inv

end Lachesis
