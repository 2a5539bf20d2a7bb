import Lachesis.Poset.Confirmation
import Lachesis.Poset.Frames

/-!
# Decisions

What a decided frame does to the chain is a function of the chain, the frame and the atropos. So the
chain of an epoch is given by the list of its atropoi, and as elections agree, the lists of different
nodes are prefixes of each other.
-/

namespace Lachesis

open Lachesis.Core Std

/-! ### Confirming a block -/

/-- The clock of the atropos `a`, by the positions of the validators. -/
def HighestOf (cfg : Config) (es : EpochState) (a : EventID) (highest : ℕ → BranchSeq) : Prop :=
  ∀ u ∈ es.validators.members, ∃ t, Observed (cfg.dag es)
    (claimedTime (cfg.events es)) a u (highest (es.validators.getIdx u)) t

section Block

variable {cfg : Config} {es : EpochState} {a : EventID} {highest : ℕ → BranchSeq}
variable {A : Set EventID} {V : Validators}

lemma HighestOf.consistent (h : HighestOf cfg es a highest)
    (hA : CheckedSet cfg.maxParents (cfg.events es) A) (ha : a ∈ A) {e : Event}
    (he : cfg.events es e.hash = some e) (hsees : (cfg.dag es).Sees a e.hash)
    (hcreator : e.creator ∈ es.validators.members) :
    (highest (es.validators.getIdx e.creator)).isForkDetected = true ∨
      e.seq ≤ (highest (es.validators.getIdx e.creator)).seq := by
  obtain ⟨t, ht⟩ := h e.creator hcreator
  obtain ⟨hfork, -, hbounds⟩ := ht.exact hA.valid ha
  by_cases hf : (cfg.dag es).SeesFork a e.creator
  · exact Or.inl (hfork.mpr hf)
  · have hmem : e.hash ∈ {y | (cfg.dag es).Sees a y ∧
        (cfg.dag es).creator y = e.creator} :=
      ⟨hsees, creator_eventDag he⟩
    have hle := (hbounds hf ⟨e.hash, hmem⟩).1.2 ⟨e.hash, hmem, rfl⟩
    rw [seq_eventDag he] at hle
    exact Or.inr hle

lemma appliedBlocks_append (l l' : List Call) :
    appliedBlocks (l ++ l') = appliedBlocks l ++ appliedBlocks l' :=
  List.filterMap_append

lemma Config.exists_calls_of_report (cfg : Config) (calls : List Call) (e : Event) (seqDepth : ℕ) :
    ∃ new, cfg.onEventConfirmed (cfg.isEventAllowedIntoBlock calls e seqDepth).2 e seqDepth
      = calls ++ new ∧ appliedBlocks new = [] := by
  unfold Config.onEventConfirmed Config.isEventAllowedIntoBlock
  cases cfg.callback.isEventAllowedIntoBlock <;> cases cfg.callback.onEventConfirmed
  · exact ⟨[], by simp, rfl⟩
  · exact ⟨_, rfl, rfl⟩
  · exact ⟨_, rfl, rfl⟩
  · exact ⟨_, List.append_assoc .., rfl⟩

/-- What the report of an event changes. -/
structure Confirming.Reports (V : Validators) (highest : ℕ → BranchSeq) (e : Event)
    (s s' : Confirming) : Prop where
  highestLamport : s'.highestLamport = max s.highestLamport e.lamport
  lowestLamport : s'.lowestLamport =
    if s.lowestLamport = 0 ∨ e.lamport < s.lowestLamport then e.lamport else s.lowestLamport
  blockEvents : s'.blockEvents = s.blockEvents ∨ (s'.blockEvents = s.blockEvents ++ [e] ∧
    (highest (V.getIdx e.creator)).isForkDetected = false)
  calls : ∃ new, s'.calls = s.calls ++ new ∧ appliedBlocks new = []

lemma onConfirmed_ok {e : Event} (s : Confirming)
    (h : (highest (V.getIdx e.creator)).isForkDetected = true ∨
      e.seq ≤ (highest (V.getIdx e.creator)).seq) :
    ∃ s', onConfirmed cfg V highest e s = .ok s' ∧ s.Reports V highest e s' := by
  have hsane : ¬ (!(highest (V.getIdx e.creator)).isForkDetected &&
      decide ((highest (V.getIdx e.creator)).seq < e.seq)) = true := by
    rcases h with h | h
    · simp [h]
    · simp only [Bool.and_eq_true, decide_eq_true_eq, not_and]
      exact fun _ => by omega
  unfold onConfirmed
  dsimp only
  rw [if_neg hsane]
  refine ⟨_, rfl, ?_, rfl, ?_, cfg.exists_calls_of_report ..⟩
  · dsimp only
    split_ifs <;> omega
  · dsimp only
    generalize (cfg.isEventAllowedIntoBlock s.calls e _).1 = allowed
    cases hcheater : (highest (V.getIdx e.creator)).isForkDetected <;> cases allowed <;> simp

/-- What the reports made so far leave behind. -/
structure Confirming.After (calls : List Call) (reported : List Event) (s : Confirming) : Prop where
  highest_le : ∀ e ∈ reported, e.lamport ≤ s.highestLamport
  highest_mem : s.highestLamport = 0 ∨ ∃ e ∈ reported, e.lamport = s.highestLamport
  calls : ∃ new, s.calls = calls ++ new ∧ appliedBlocks new = []

lemma Confirming.After.report {calls : List Call} {reported : List Event} {s : Confirming}
    (hs : s.After calls reported) {e : Event}
    (h : (highest (V.getIdx e.creator)).isForkDetected = true ∨
      e.seq ≤ (highest (V.getIdx e.creator)).seq) :
    ∃ s', onConfirmed cfg V highest e s = .ok s' ∧ s'.After calls (reported ++ [e]) := by
  obtain ⟨s', hrun, hmax, -, -, new, hcalls, hnew⟩ := onConfirmed_ok s h
  obtain ⟨old, hold, hold'⟩ := hs.calls
  refine ⟨s', hrun, ?_, ?_, old ++ new, by rw [hcalls, hold, List.append_assoc], ?_⟩
  · intro e' he'
    rcases List.mem_append.mp he' with he' | he'
    · exact hmax ▸ le_max_of_le_left (hs.highest_le e' he')
    · rw [List.mem_singleton.mp he', hmax]
      exact le_max_right _ _
  · rcases le_total s.highestLamport e.lamport with hle | hle
    · exact Or.inr ⟨e, by simp, by rw [hmax, max_eq_right hle]⟩
    · rw [hmax, max_eq_left hle]
      exact hs.highest_mem.imp_right fun ⟨e', he', heq⟩ => ⟨e', by simp [he'], heq⟩
  · rw [appliedBlocks_append, hold', hnew, List.append_nil]

variable {highest' : ℕ → BranchSeq}

lemma cheatersOf_congr (h : ∀ v, highest (V.getIdx v) = highest' (V.getIdx v)) :
    cheatersOf V highest = cheatersOf V highest' := by
  unfold cheatersOf
  congr 1
  refine List.filter_congr ?_
  rintro ⟨v, i⟩ hv
  have hi : V.getIdx v = i := (Validators.getIdx_of_ids (List.mem_zipIdx_iff_getElem?.mp hv)).2
  simp only [← hi, h]

lemma onConfirmed_congr (h : ∀ v, highest (V.getIdx v) = highest' (V.getIdx v)) :
    onConfirmed cfg V highest = onConfirmed cfg V highest' := by
  funext e s
  simp only [onConfirmed, h]

/-- The index answers only what the graph says. -/
lemma HighestOf.agree (h : HighestOf cfg es a highest) (h' : HighestOf cfg es a highest')
    (hne : es.validators.members.Nonempty) (v : StakerID) :
    highest (es.validators.getIdx v) = highest' (es.validators.getIdx v) := by
  by_cases hv : v ∈ es.validators.members
  · obtain ⟨t, ht⟩ := h v hv
    obtain ⟨t', ht'⟩ := h' v hv
    exact ht.unique ht'
  · -- a stranger has the position of the first validator
    obtain ⟨u, hu⟩ := hne
    have hlen := Validators.getIdx_lt hu
    obtain ⟨w, hw, hw₀⟩ := Validators.exists_getIdx (V := es.validators) (i := 0) (by omega)
    rw [Validators.mem_members] at hv
    rw [Validators.getIdx, if_neg hv, ← hw₀]
    obtain ⟨t, ht⟩ := h w hw
    obtain ⟨t', ht'⟩ := h' w hw
    exact ht.unique ht'

end Block

/-! ### The chain after a decision -/

namespace Chain

variable {cfg : Config} {es : EpochState} {D : Set EventID} {A : Finset EventID} {a : EventID}
variable {highest : ℕ → BranchSeq} {c c' : Chain} {f fuel : ℕ}

/-- The frame that confirmed an event. -/
def confirmedOn (c : Chain) (id : EventID) : ℕ := c.main.confirmedEvent.confirmedOn id

open Classical in
/-- `confirmBlock` marks the ancestors of the atropos, and its block has the consensus time of the
frame, which is that of the atropos if the atropos is confirmed with the block. -/
lemma confirmBlock_ok (hA : Known cfg es D A) (hes : c.epochState = es) (ha : a ∈ A) (hf : f ≠ 0)
    (hclosed : ∀ x ∈ A, c.confirmedOn x ≠ 0 → ∀ p ∈ (cfg.dag es).parents x, c.confirmedOn p ≠ 0)
    (hhighest : HighestOf cfg es a highest)
    (hfuel : 1 + ∑ x ∈ A, ((cfg.dag es).parents x).length ≤ fuel)
    {time : Timestamp} (htime : c.frameConsensusTime (f - 1) = .ok time) :
    ∃ block marks info new, c.confirmBlock cfg fuel highest f a
        = .ok (block, cheatersOf es.validators highest,
          { c with
            main := { c.main with
              confirmedEvent := marks
              frameInfos := c.main.frameInfos.insert ⟨es.epochN, f⟩ info }
            calls := c.calls ++ new }) ∧
      block.atropos = a ∧ block.time = info.lastConsensusTime ∧ appliedBlocks new = [] ∧
      (∀ x, marks.confirmedOn x =
        if (cfg.dag es).Sees a x ∧ c.confirmedOn x = 0 then f
        else c.confirmedOn x) ∧
      (c.confirmedOn a = 0 → info.calcConsensusTime a.lamport = info.lastConsensusTime) := by
  obtain ⟨marks, confirming, reported, hrun, hafter, -, hreported, hmarks⟩ := confirmEvents_ok
    (onConfirmed cfg es.validators highest) hA.checkedSet.storedSet
    (fun reported s => s.After c.calls reported) hclosed hf ha hfuel
    (s := ⟨0, 0, [], c.calls⟩) ⟨by simp, Or.inl rfl, [], by simp, rfl⟩
    (by
      rintro done e s he hsees - hs
      obtain ⟨e', he', -, -, haccepted⟩ :=
        exists_of_mem_validEvents (hA.valid _ (hA.sees_mem ha hsees))
      obtain rfl : e = e' := Option.some.inj (he.symm.trans he')
      exact hs.report
        (hhighest.consistent hA.checkedSet ha he hsees haccepted.creator_mem))
  obtain ⟨header, hheader, hhash, hchecked, -⟩ := exists_of_mem_validEvents (hA.valid a ha)
  obtain ⟨new, hcalls, hnew⟩ := hafter.calls
  have hlamport : a.lamport = header.lamport := by
    have hlt := hchecked.lamport_lt
    unfold Basiccheck.maxIndex at hlt
    rw [← hhash, Event.lamport_hash (by omega)]
  let info := fareTimestamps time header.medianTime confirming.highestLamport
    confirming.lowestLamport
  refine ⟨⟨c.checkpoint.lastBlockN + 1, info.lastConsensusTime, a, c.checkpoint.lastAtropos,
    fareOrdering confirming.blockEvents⟩, marks, info, new, ?_, rfl, rfl, hnew, hmarks, fun h₀ => ?_⟩
  · subst hes
    simp only [confirmBlock, hrun, htime, hheader, hcalls, bind, Except.bind, pure, Except.pure]
    rfl
  · -- the atropos is among the reported events, and nothing it sees has a greater Lamport time
    have hmem : header ∈ reported := by
      rw [hreported, hhash]
      exact ⟨hheader, .refl a, h₀⟩
    have hle := hafter.highest_le header hmem
    have hpos := (Basiccheck.checkInited_eq_none.mp hchecked.inited).2.2.2.1
    have heq : confirming.highestLamport = header.lamport := by
      rcases hafter.highest_mem with h₀ | ⟨e, he, heq⟩
      · omega
      · obtain ⟨hstored, hsees, -⟩ := (hreported e).mp he
        have := hA.checkedSet.lamport_le_of_sees ha hsees hheader hstored
        omega
    rw [FrameInfo.calcConsensusTime, hlamport, ← heq]
    rfl

open Classical in
/-- The chain `c'` after the frame `f` of the epoch `es` was decided with the atropos `a`. -/
structure Decision (cfg : Config) (es : EpochState) (f : ℕ) (a : EventID) (c : Chain)
    (sealed : Bool) (c' : Chain) : Prop where
  marks : ∀ x, c'.confirmedOn x =
    if (cfg.dag es).Sees a x ∧ c.confirmedOn x = 0 then f else c.confirmedOn x
  frameInfo : ∃ info, c'.frameInfo es.epochN f = some info ∧
    (c.confirmedOn a = 0 → info.calcConsensusTime a.lamport = info.lastConsensusTime) ∧
    ∃ new, c'.calls = c.calls ++ new ∧ ∀ b ∈ appliedBlocks new,
      b.1.atropos = a ∧ b.1.time = info.lastConsensusTime ∧ b.2.1 = f
  going : sealed = false → c'.epochState = es ∧ c'.checkpoint.lastDecidedFrame = f
  ended : sealed = true →
    c'.epochState.epochN = es.epochN + 1 ∧ c'.checkpoint.lastDecidedFrame = 0

lemma frameInfo_insert (infos : ExtTreeMap FrameKey FrameInfo) (n f m g : ℕ) (info : FrameInfo) :
    (infos.insert ⟨n, f⟩ info)[(⟨m, g⟩ : FrameKey)]?
      = if m = n ∧ g = f then some info else infos[(⟨m, g⟩ : FrameKey)]? := by
  simp only [ExtTreeMap.getElem?_insert, LawfulEqCmp.compare_eq_iff_eq, FrameKey.mk.injEq,
    eq_comm (a := n), eq_comm (a := f)]

lemma applyBlock_eq (cfg : Config) (block : Block) (cheaters : List StakerID) (c : Chain) :
    ∃ sealed appHash new, c.applyBlock cfg block f cheaters
        = (sealed, { c with
            checkpoint := { c.checkpoint with appHash }
            calls := c.calls ++ new }) ∧
      ∀ b ∈ appliedBlocks new, b = (block, f, cheaters) := by
  unfold applyBlock
  cases cfg.callback.applyBlock with
  | none => exact ⟨false, c.checkpoint.appHash, [], by simp, by simp [appliedBlocks]⟩
  | some apply => exact ⟨_, _, _, rfl, by simp [appliedBlocks, Call.applied]⟩

/-- What the end of `onFrameDecided` does: marks and records of frames stay, the block is applied,
and the epoch goes on unless it is sealed. -/
structure Finishes (block : Block) (f : ℕ) (cheaters : List StakerID) (c : Chain) (sealed : Bool)
    (c' : Chain) : Prop where
  confirmedEvent : c'.main.confirmedEvent = c.main.confirmedEvent
  frameInfos : c'.main.frameInfos = c.main.frameInfos
  calls : ∃ new, c'.calls = c.calls ++ new ∧ ∀ b ∈ appliedBlocks new, b = (block, f, cheaters)
  checkpoint : c'.main.checkpoint = some c'.checkpoint
  going : sealed = false → c'.epochState = c.epochState ∧ c'.main.epoch = c.main.epoch ∧
    c'.checkpoint.lastDecidedFrame = c.checkpoint.lastDecidedFrame
  ended : sealed = true → c'.epochState.epochN = c.epochState.epochN + 1 ∧
    c'.main.epoch = some c'.epochState ∧ c'.checkpoint.lastDecidedFrame = 0

lemma nextValidators_calls (cfg : Config) (c : Chain) :
    ∃ new, (c.nextValidators cfg).2 = c.calls ++ new ∧ appliedBlocks new = [] := by
  unfold nextValidators
  split
  · exact ⟨[], by simp, rfl⟩
  · exact ⟨_, rfl, rfl⟩

/-- The epoch goes on or is followed by the next one. -/
lemma finishFrame_finishes {block : Block} {cheaters : List StakerID} {sealed : Bool}
    (h : c.finishFrame cfg f a block cheaters = .ok (sealed, c')) :
    Finishes block f cheaters c sealed c' := by
  obtain ⟨sealed', appHash, new, happly, hnew⟩ := applyBlock_eq (f := f) cfg block cheaters
    { c with checkpoint := { c.checkpoint with lastBlockN := c.checkpoint.lastBlockN + 1 } }
  simp only [finishFrame, happly] at h
  cases sealed' with
  | false =>
    cases h
    exact ⟨rfl, rfl, ⟨new, rfl, hnew⟩, rfl, fun _ => ⟨rfl, rfl, rfl⟩, by simp⟩
  | true =>
    obtain ⟨c₁, hseal, hpair⟩ := map_eq_ok_iff.mp h
    cases hpair
    simp only [sealEpoch, bind, bind_eq_ok_iff] at hseal
    obtain ⟨time, -, hseal⟩ := hseal
    cases hseal
    obtain ⟨new', hcalls, hnew'⟩ := nextValidators_calls cfg (saveCheckpoint { c with
      checkpoint := { c.checkpoint with
        lastBlockN := c.checkpoint.lastBlockN + 1, lastAtropos := a, appHash }
      calls := c.calls ++ new })
    refine ⟨rfl, rfl, ⟨new ++ new', hcalls.trans (List.append_assoc ..), ?_⟩, rfl, by simp,
      fun _ => ⟨rfl, rfl, rfl⟩⟩
    rwa [appliedBlocks_append, hnew', List.append_nil]

lemma exists_sealEpoch (cfg : Config) {time : Timestamp} (c : Chain)
    (htime : c.frameConsensusTime c.checkpoint.lastDecidedFrame = .ok time) :
    ∃ c', c.sealEpoch cfg = .ok c' := by
  rw [sealEpoch, htime]
  exact ⟨_, rfl⟩

/-- The end of `onFrameDecided` goes through once the frame has a consensus time. -/
lemma exists_finishFrame (cfg : Config) (f : ℕ) (a : EventID) (block : Block)
    (cheaters : List StakerID) {time : Timestamp}
    (htime : c.frameConsensusTime c.checkpoint.lastDecidedFrame = .ok time) :
    ∃ sealed c', c.finishFrame cfg f a block cheaters = .ok (sealed, c') := by
  obtain ⟨sealed, appHash, new, happly, -⟩ := applyBlock_eq (f := f) cfg block cheaters
    { c with checkpoint := { c.checkpoint with lastBlockN := c.checkpoint.lastBlockN + 1 } }
  simp only [finishFrame, happly]
  cases sealed with
  | false => exact ⟨false, _, rfl⟩
  | true =>
    obtain ⟨c', hseal⟩ := exists_sealEpoch cfg (saveCheckpoint { c with
      checkpoint := { c.checkpoint with
        lastBlockN := c.checkpoint.lastBlockN + 1, lastAtropos := a, appHash }
      calls := c.calls ++ new }) htime
    exact ⟨true, c', congrArg (Except.map _) hseal⟩

/-- `onFrameDecided` for an atropos that the node has accepted. -/
theorem onFrameDecided_ok (hA : Known cfg es D A) (hes : c.epochState = es) (ha : a ∈ A)
    (hf : f ≠ 0) (hclosed : ∀ x ∈ A, c.confirmedOn x ≠ 0 → ∀ p ∈ (cfg.dag es).parents x,
      c.confirmedOn p ≠ 0)
    (hhighest : HighestOf cfg es a highest)
    (hfuel : 1 + ∑ x ∈ A, ((cfg.dag es).parents x).length ≤ fuel)
    {time : Timestamp} (htime : c.frameConsensusTime (f - 1) = .ok time) :
    ∃ sealed c', c.onFrameDecided cfg fuel highest f a = .ok (sealed, c') ∧
      c.Decision cfg es f a sealed c' := by
  obtain ⟨block, marks, info, new, hrun, hatropos, hblock, hnew, hmarks, hconsensus⟩ :=
    confirmBlock_ok (c := { c with checkpoint := { c.checkpoint with lastDecidedFrame := f } })
      hA hes ha hf hclosed hhighest hfuel htime
  subst hes
  have hinfo := fun m g => frameInfo_insert c.main.frameInfos c.epochState.epochN f m g info
  obtain ⟨sealed, c', hfinish⟩ := exists_finishFrame cfg f a block
    (cheatersOf c.epochState.validators highest)
    (c := { main := { c.main with
              confirmedEvent := marks
              frameInfos := c.main.frameInfos.insert ⟨c.epochState.epochN, f⟩ info }
            checkpoint := { c.checkpoint with lastDecidedFrame := f }
            epochState := c.epochState
            calls := c.calls ++ new })
    (show _ = Except.ok info.lastConsensusTime by
      simp only [frameConsensusTime, if_neg hf, Chain.frameInfo, hinfo, and_self, if_true])
  have hends := finishFrame_finishes hfinish
  obtain ⟨new', hcalls', hnew'⟩ := hends.calls
  refine ⟨sealed, c', by rw [onFrameDecided, hrun]; exact hfinish, ?_, ?_, ?_, ?_⟩
  · intro x
    rw [confirmedOn, hends.confirmedEvent, hmarks]
    rfl
  · refine ⟨info, ?_, hconsensus, new ++ new', ?_, ?_⟩
    · rw [Chain.frameInfo, hends.frameInfos, hinfo, if_pos ⟨rfl, rfl⟩]
    · rw [hcalls', List.append_assoc]
    · intro b hb
      rw [appliedBlocks_append, hnew, List.nil_append] at hb
      rw [hnew' b hb]
      exact ⟨hatropos, hblock, rfl⟩
  · intro h
    obtain ⟨hes, -, hlast⟩ := hends.going h
    exact ⟨hes, hlast⟩
  · intro h
    obtain ⟨hepochN, -, hlast⟩ := hends.ended h
    exact ⟨hepochN, hlast⟩

/-! ### The chain of an epoch -/

/-- The chain of the epoch `es` whose frames were decided with the atropoi `as`. -/
structure Inv (cfg : Config) (es : EpochState) (as : List EventID) (c : Chain) : Prop where
  epochState : c.epochState = es
  lastDecidedFrame : c.checkpoint.lastDecidedFrame = as.length
  marks : ∀ x, EventID.epoch x = es.epochN →
    c.confirmedOn x = firstFrame (cfg.dag es) (as.zipIdx 1) x
  old : ∀ x, c.confirmedOn x ≠ 0 → EventID.epoch x ≤ es.epochN
  frameInfo : as ≠ [] → ∃ info, c.frameInfo es.epochN as.length = some info

lemma zipIdx_ne_zero {as : List EventID} : ∀ d ∈ as.zipIdx 1, d.2 ≠ 0 := by
  rintro ⟨x, i⟩ hd
  have := (List.mem_zipIdx hd).1
  simp only
  omega

namespace Inv

variable {as : List EventID}

lemma closed (h : c.Inv cfg es as) (hA : Known cfg es D A) {x : EventID} (hx : x ∈ A)
    (hmark : c.confirmedOn x ≠ 0) {p : EventID}
    (hp : p ∈ (cfg.dag es).parents x) : c.confirmedOn p ≠ 0 := by
  have hpA := hA.sees_mem hx (.of_mem_parents hp)
  rw [h.marks x (epoch_of_mem_validEvents (hA.valid x hx))] at hmark
  rw [h.marks p (epoch_of_mem_validEvents (hA.valid p hpA))]
  exact firstFrame_ne_zero_of_parent zipIdx_ne_zero hp hmark

lemma exists_frameConsensusTime (h : c.Inv cfg es as) :
    ∃ time, c.frameConsensusTime as.length = .ok time := by
  unfold frameConsensusTime
  by_cases has : as = []
  · exact ⟨_, if_pos (by simp [has])⟩
  · obtain ⟨info, hinfo⟩ := h.frameInfo has
    rw [if_neg (by simpa using has), h.epochState, hinfo]
    exact ⟨_, rfl⟩

lemma next (h : c.Inv cfg es as) (ha : a ∈ validEvents cfg es D)
    (hd : c.Decision cfg es (as.length + 1) a false c') : c'.Inv cfg es (as ++ [a]) where
  epochState := (hd.going rfl).1
  lastDecidedFrame := by rw [(hd.going rfl).2, List.length_append, List.length_singleton]
  marks x hx := by
    rw [hd.marks, h.marks x hx, List.zipIdx_append, List.zipIdx_singleton,
      firstFrame_concat zipIdx_ne_zero, Nat.add_comm 1]
  old x hx := by
    rw [hd.marks] at hx
    split_ifs at hx with hsees
    · exact (epoch_of_mem_validEvents (sees_mem_validEvents ha hsees.1)).le
    · exact h.old x hx
  frameInfo _ := by
    obtain ⟨info, hinfo, -⟩ := hd.frameInfo
    exact ⟨info, by rw [List.length_append, List.length_singleton, hinfo]⟩

lemma sealed (h : c.Inv cfg es as) (ha : a ∈ validEvents cfg es D) {f : ℕ}
    (hd : c.Decision cfg es f a true c') : c'.Inv cfg c'.epochState [] where
  epochState := rfl
  lastDecidedFrame := (hd.ended rfl).2
  marks x hx := by
    rw [(hd.ended rfl).1] at hx
    rw [hd.marks, List.zipIdx_nil, firstFrame_nil]
    split_ifs with hsees
    · have := epoch_of_mem_validEvents (sees_mem_validEvents ha hsees.1)
      omega
    · by_contra hne
      have := h.old x hne
      omega
  old x hx := by
    rw [(hd.ended rfl).1]
    rw [hd.marks] at hx
    split_ifs at hx with hsees
    · have := epoch_of_mem_validEvents (sees_mem_validEvents ha hsees.1)
      omega
    · have := h.old x hx
      omega
  frameInfo h := absurd rfl h

end Inv

/-! ### Decisions are functions of the chain -/

section Unique

variable {highest' : ℕ → BranchSeq}

lemma confirmBlock_unique {n m : ℕ} {r r' : Block × List StakerID × Chain}
    (h : c.confirmBlock cfg n highest f a = .ok r)
    (h' : c.confirmBlock cfg m highest f a = .ok r') : r = r' := by
  unfold confirmBlock at h h'
  simp only [bind, Except.bind] at h h'
  split at h
  · cases h
  split at h'
  · cases h'
  rename_i _ s hs _ s' hs'
  obtain rfl : s = s' := walk_unique hs hs'
  rw [h] at h'
  exact Except.ok.inj h'

/-- The outcome depends on nothing but the graph. -/
lemma onFrameDecided_unique (hes : c.epochState = es) (hne : es.validators.members.Nonempty)
    {n m : ℕ} {r r' : Bool × Chain} (hhighest : HighestOf cfg es a highest)
    (hhighest' : HighestOf cfg es a highest') (h : c.onFrameDecided cfg n highest f a = .ok r)
    (h' : c.onFrameDecided cfg m highest' f a = .ok r') : r = r' := by
  subst hes
  have hagree := hhighest.agree hhighest' hne
  have hcongr : ∀ k c₁, c₁.epochState = c.epochState →
      confirmBlock cfg k highest f a c₁ = confirmBlock cfg k highest' f a c₁ := by
    intro k c₁ hes
    simp only [confirmBlock, hes, onConfirmed_congr hagree, cheatersOf_congr hagree]
  unfold onFrameDecided at h h'
  rw [← hcongr] at h'
  · split at h
    · cases h
    split at h'
    · cases h'
    rename_i _ _ _ _ h₁ _ _ _ _ h₂
    cases confirmBlock_unique h₁ h₂
    rw [h] at h'
    exact Except.ok.inj h'
  · rfl

end Unique

/-- Deciding the frame `f` of the epoch `es` with the atropos `a` leads from `c` to `c'`. -/
structure Decides (cfg : Config) (es : EpochState) (f : ℕ) (a : EventID) (c : Chain)
    (sealed : Bool) (c' : Chain) : Prop where
  epochState : c.epochState = es
  decision : c.Decision cfg es f a sealed c'
  run : ∃ fuel highest, HighestOf cfg es a highest ∧
    c.onFrameDecided cfg fuel highest f a = .ok (sealed, c')

lemma Decides.unique {s s' : Bool} {c'' : Chain} (hne : es.validators.members.Nonempty)
    (h : c.Decides cfg es f a s c') (h' : c.Decides cfg es f a s' c'') : s = s' ∧ c' = c'' := by
  obtain ⟨_, _, hhighest, hrun⟩ := h.run
  obtain ⟨_, _, hhighest', hrun'⟩ := h'.run
  exact Prod.mk.inj (onFrameDecided_unique h.epochState hne hhighest hhighest' hrun hrun')

lemma Decides.calls_extend {s : Bool} (h : c.Decides cfg es f a s c') : c.calls <+: c'.calls := by
  obtain ⟨info, -, -, new, hcalls, -⟩ := h.decision.frameInfo
  exact ⟨new, hcalls.symm⟩

end Chain

/-! ### The decisions of an epoch -/

/-- From the chain `c₀` at the beginning of an epoch, the frames are decided in turn with the roots
that those of `P` elect, up to a frame that seals the epoch. -/
inductive Decided (cfg : Config) (es : EpochState) (D P : Set EventID) (c₀ : Chain) :
    List EventID → Bool → Chain → Prop
  | start : Decided cfg es D P c₀ [] false c₀
  | next {as : List EventID} {c : Chain} {a : EventID} {sealed : Bool} {c' : Chain}
      (before : Decided cfg es D P c₀ as false c)
      (elected : (rootGraph cfg es D).Elected es.validators (as.length + 1) P a)
      (decides : c.Decides cfg es (as.length + 1) a sealed c') :
      Decided cfg es D P c₀ (as ++ [a]) sealed c'

namespace Decided

variable {cfg : Config} {es : EpochState} {D P P' : Set EventID} {c₀ c c' : Chain}
variable {as as' : List EventID} {s s' : Bool}

variable (h : Decided cfg es D P c₀ as s c)
include h

lemma mono (hP : P ⊆ P') : Decided cfg es D P' c₀ as s c := by
  induction h with
  | start => exact .start
  | next _ elected decides ih => exact .next ih (elected.mono hP) decides

lemma inv (h₀ : c₀.Inv cfg es []) :
    (s = false → c.Inv cfg es as) ∧
      (s = true → c.Inv cfg c.epochState [] ∧ c.epochState.epochN = es.epochN + 1) := by
  induction h with
  | start => exact ⟨fun _ => h₀, by simp⟩
  | next _ elected decides ih =>
    obtain ⟨_, _, _, -, -, -, ha, -⟩ := elected
    refine ⟨?_, ?_⟩
    · rintro rfl
      exact (ih.1 rfl).next ha.1 decides.decision
    · rintro rfl
      exact ⟨(ih.1 rfl).sealed ha.1 decides.decision, (decides.decision.ended rfl).1⟩

/-- Two nodes that decided as many frames decided the same. -/
lemma unique (hsafe : Safe cfg es D)
    (h' : Decided cfg es D P' c₀ as' s' c') (hlen : as.length = as'.length) :
    as = as' ∧ s = s' ∧ c = c' := by
  induction h generalizing as' s' c' with
  | start =>
    cases h' with
    | start => exact ⟨rfl, rfl, rfl⟩
    | next => simp at hlen
  | next _ elected decides ih =>
    cases h' with
    | start => simp at hlen
    | next before' elected' decides' =>
      obtain ⟨rfl, -, rfl⟩ := ih before' (by simpa using hlen)
      obtain rfl := (hsafe.electable (Nat.succ_pos _)).elected_unique elected elected'
      obtain ⟨_, v, _, hids, -⟩ := elected
      have hne : es.validators.members.Nonempty :=
        ⟨v, Validators.mem_members.mpr (by simp [hids])⟩
      obtain ⟨rfl, rfl⟩ := decides.unique hne decides'
      exact ⟨rfl, rfl, rfl⟩

lemma take {k : ℕ} (hk : k < as.length) :
    ∃ c', Decided cfg es D P c₀ (as.take k) false c' ∧ c'.calls <+: c.calls ∧
      ∃ a, (rootGraph cfg es D).Elected es.validators (k + 1) P a := by
  induction h with
  | start => simp at hk
  | @next as c a sealed c' before elected decides ih =>
    rw [List.length_append, List.length_singleton] at hk
    rcases Nat.lt_succ_iff_lt_or_eq.mp hk with hlt | rfl
    · obtain ⟨c₁, h₁, hcalls, helected⟩ := ih hlt
      refine ⟨c₁, ?_, hcalls.trans decides.calls_extend, helected⟩
      rwa [List.take_append_of_le_length hlt.le]
    · exact ⟨c, by rwa [List.take_left], decides.calls_extend, a, elected⟩

/-- Two nodes never disagree: the one with fewer decisions has a part of the other's, and it has not
sealed the epoch yet. -/
theorem comparable (hsafe : Safe cfg es D)
    (h' : Decided cfg es D P' c₀ as' s' c') (hlt : as.length < as'.length) :
    s = false ∧ c.calls <+: c'.calls ∧
      ∃ a, (rootGraph cfg es D).Elected es.validators (as.length + 1) P' a := by
  obtain ⟨c₁, h₁, hcalls, helected⟩ := h'.take hlt
  obtain ⟨-, rfl, rfl⟩ := h.unique hsafe h₁ (by rw [List.length_take]; omega)
  exact ⟨rfl, hcalls, helected⟩

end Decided

/-- All decisions that the roots of `P` allow. -/
def Settled (cfg : Config) (es : EpochState) (D P : Set EventID) (c₀ : Chain) (as : List EventID)
    (s : Bool) (c : Chain) : Prop :=
  Decided cfg es D P c₀ as s c ∧
    (s = false → ∀ a, ¬ (rootGraph cfg es D).Elected es.validators (as.length + 1) P a)

namespace Settled

variable {cfg : Config} {es : EpochState} {D P P' : Set EventID} {c₀ c c' : Chain}
variable {as as' : List EventID} {s s' : Bool}

lemma length_le (hsafe : Safe cfg es D) (h : Decided cfg es D P c₀ as s c)
    (h' : Settled cfg es D P' c₀ as' s' c') (hP : P ⊆ P') : as.length ≤ as'.length := by
  by_contra hlt
  obtain ⟨hs, -, a, ha⟩ := h'.1.comparable hsafe h (by omega)
  exact h'.2 hs a (ha.mono hP)

/-- Nodes that know the same roots have made the same decisions. -/
theorem unique (hsafe : Safe cfg es D) (h : Settled cfg es D P c₀ as s c)
    (h' : Settled cfg es D P c₀ as' s' c') : as = as' ∧ s = s' ∧ c = c' :=
  h.1.unique hsafe h'.1 (Nat.le_antisymm (length_le hsafe h.1 h' subset_rfl)
    (length_le hsafe h'.1 h subset_rfl))

end Settled

end Lachesis
