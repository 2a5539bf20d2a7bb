import Lachesis.Gossip.Packs

/-!
# The numbers in the infos of packs

The info of a pack has the number of its events and their size. It is read under the epoch of the
engine and written under the epoch of the event, which are not the same for an event that seals the
epoch: the new epoch has no infos, so the count starts over, and the last pack is then pinned with
the info of an empty one.
-/

namespace Lachesis

open Lachesis.Core

namespace PackTables

variable {log : List Event} {size : Event → ℕ} {t : PackTables} {n r : ℕ} {e : Event}
variable {heads : List EventID}

/-- The size of the accepted events in a pack. -/
def packSize (size : Event → ℕ) (log : List Event) (t : PackTables) (n i : ℕ) : ℕ :=
  ((log.filter fun x => x.epoch = n ∧ x.hash ∈ t.packs n i).map size).sum

/-- The infos have the numbers of the events in the packs and their sizes, and no pack has more
events than the limit. -/
structure Counted (size : Event → ℕ) (log : List Event) (t : PackTables) : Prop where
  infos : ∀ n i info, t.packInfos n i = some info →
    info.numOfEvents.toNat = (t.getPack n i).length ∧ info.size.toNat = t.packSize size log n i
  limit : ∀ n i, (t.getPack n i).length ≤ maxPackEventsNum.toNat

abbrev lastPack (t : PackTables) (n : ℕ) : ℕ := t.getPacksNumOrDefault n

/-- The infos and the packs in the epoch `N` between two calls: every event is in a pack with an
info, the packs are numbered up to the last one, which is not full, and a later epoch has no
infos. -/
structure Recorded (N : ℕ) (t : PackTables) : Prop where
  recorded : ∀ n i, t.packInfos n i = none → t.packs n i = ∅
  info_le : ∀ n i info, t.packInfos n i = some info → i ≤ t.lastPack n
  not_full : ∀ n info, t.packInfos n (t.lastPack n) = some info → ¬ info.Full
  later : ∀ n, N < n → ∀ i, t.packInfos n i = none

lemma recorded_empty (N : ℕ) : Recorded N empty where
  recorded _ _ _ := rfl
  info_le _ _ _ h := by cases h
  not_full _ _ h := by cases h
  later _ _ _ := rfl

lemma counted_empty : Counted size [] empty where
  infos _ _ _ h := by cases h
  limit _ _ := by simp [getPack, empty]

variable {sz : ℕ}

/-- The last pack of the epoch gets an info, and is the last one still unless it is full. -/
lemma Recorded.step {t' : PackTables} (h : Recorded n t)
    (hothers : ∀ m i, ¬ (m = n ∧ i = t.lastPack n) →
      t'.packInfos m i = t.packInfos m i ∧ t'.packs m i = t.packs m i)
    (hsome : t'.packInfos n (t.lastPack n) ≠ none)
    (hnum : ∀ m ≠ n, t'.lastPack m = t.lastPack m)
    (hlast : t'.lastPack n = t.lastPack n + 1 ∨
      t'.lastPack n = t.lastPack n ∧
        ∀ info, t'.packInfos n (t.lastPack n) = some info → ¬ info.Full) :
    Recorded n t' := by
  have hle : ∀ m, t.lastPack m ≤ t'.lastPack m := by
    intro m
    by_cases hmn : m = n
    · rw [hmn]
      omega
    · rw [hnum m hmn]
  constructor
  · intro m i hnone
    have hother : ¬ (m = n ∧ i = t.lastPack n) := by
      rintro ⟨rfl, rfl⟩
      exact hsome hnone
    rw [(hothers m i hother).1] at hnone
    rw [(hothers m i hother).2, h.recorded m i hnone]
  · intro m i info hinfo
    refine le_trans ?_ (hle m)
    by_cases hother : m = n ∧ i = t.lastPack n
    · rw [hother.1, hother.2]
    · exact h.info_le m i info ((hothers m i hother).1 ▸ hinfo)
  · intro m info hinfo
    by_cases hmn : m = n
    · subst hmn
      rcases hlast with hnext | ⟨hsame, hfull⟩
      · -- the next pack has no info yet
        rw [hnext, (hothers m _ (by omega)).1] at hinfo
        have := h.info_le m _ info hinfo
        omega
      · exact hfull info (hsame ▸ hinfo)
    · rw [hnum m hmn, (hothers m _ (by simp [hmn])).1] at hinfo
      exact h.not_full m info hinfo
  · intro m hm i
    rw [(hothers m i (by omega)).1]
    exact h.later m hm i

lemma Recorded.onNewEvent (h : Recorded n t) {id : EventID} :
    Recorded n (t.onNewEvent n r id sz heads) := by
  refine h.step (fun m i hother => by simp [hother]) (by simp) (fun m hm => by simp [hm]) ?_
  by_cases hfull : (t.counted n r sz).Full
  · exact .inl (by simp [hfull])
  · exact .inr (by simp [hfull])

lemma Recorded.onNewEpoch (h : Recorded n t) : Recorded (n + 1) (t.onNewEpoch n r heads) := by
  have hstep : Recorded n (t.onNewEpoch n r heads) :=
    h.step (fun m i hother => by simp [hother]) (by simp) (fun m hm => by simp [hm])
      (.inl (by simp))
  exact { hstep with later := fun m hm => hstep.later m (Nat.lt_of_succ_lt hm) }

/-! ### One more event -/

lemma length_getPack (m j : ℕ) : (t.getPack m j).length = (t.packs m j).card :=
  Finset.length_sort _

lemma Packed.length_onNewEvent (h : Packed log t) (hfresh : Fresh log e) (m j : ℕ) :
    ((t.onNewEvent n r e.hash sz heads).getPack m j).length =
      (t.getPack m j).length + if m = n ∧ j = t.lastPack n then 1 else 0 := by
  have hnew := h.not_mem hfresh m j
  rw [length_getPack, length_getPack, packs_onNewEvent]
  split_ifs
  · exact Finset.card_insert_of_notMem hnew
  · rfl

/-- An event adds its size to the last pack of its epoch. -/
lemma Packed.packSize_onNewEvent (h : Packed log t) (hfresh : Fresh log e) (he : e.epoch = n)
    (m j : ℕ) :
    (t.onNewEvent n r e.hash sz heads).packSize size (log ++ [e]) m j =
      t.packSize size log m j +
        if m = n ∧ j = t.lastPack n then size e else 0 := by
  have hnew := h.not_mem hfresh m j
  have hold : ∀ x ∈ log, (x.hash ∈ (t.onNewEvent n r e.hash sz heads).packs m j ↔
      x.hash ∈ t.packs m j) := by
    intro x hx
    rw [packs_onNewEvent]
    split_ifs
    · simp [hfresh.new x hx]
    · rfl
  have hlog : (log.filter fun x => x.epoch = m ∧
      x.hash ∈ (t.onNewEvent n r e.hash sz heads).packs m j) =
        log.filter fun x => x.epoch = m ∧ x.hash ∈ t.packs m j := by
    apply List.filter_congr
    intro x hx
    simp only [hold x hx]
  have hlast : ([e].filter fun x => x.epoch = m ∧
      x.hash ∈ (t.onNewEvent n r e.hash sz heads).packs m j) =
        if m = n ∧ j = t.lastPack n then [e] else [] := by
    rw [packs_onNewEvent]
    split_ifs with hmj
    · simp [he, hmj.1]
    · simp [hnew]
  rw [packSize, List.filter_append, hlog, hlast, List.map_append, List.sum_append, packSize]
  split_ifs
  · simp
  · simp

lemma Counted.last (h : Counted size log t) (hrec : Recorded n t) :
    let info := t.getPackInfoOrDefault n (t.lastPack n)
    info.numOfEvents.toNat = (t.getPack n (t.lastPack n)).length ∧
      info.size.toNat = t.packSize size log n (t.lastPack n) ∧ ¬ info.Full := by
  intro info
  cases hinfo : t.packInfos n (t.lastPack n) with
  | none =>
    have hempty := hrec.recorded _ _ hinfo
    have hdefault : info = ⟨t.lastPack n, 0, 0, []⟩ := by
      simp [info, getPackInfoOrDefault, hinfo]
    rw [hdefault, length_getPack, packSize, hempty]
    simp [PackInfo.Full, maxPackEventsNum, maxPackSize]
  | some info' =>
    have hsame : info = info' := by simp [info, getPackInfoOrDefault, hinfo]
    rw [hsame]
    obtain ⟨hnum, hsize⟩ := h.infos _ _ _ hinfo
    exact ⟨hnum, hsize, hrec.not_full _ _ hinfo⟩

lemma toNat_size_counted : (t.counted n r sz).size.toNat =
    ((t.getPackInfoOrDefault r (t.lastPack n)).size.toNat + sz) % 2 ^ 32 := by
  simp [counted, UInt32.toNat_add, UInt32.toNat_ofNat']

lemma toNat_num_counted : (t.counted n r sz).numOfEvents.toNat =
    ((t.getPackInfoOrDefault r (t.lastPack n)).numOfEvents.toNat + 1) % 2 ^ 32 := by
  simp [counted, UInt32.toNat_add]

lemma packInfos_last {id : EventID} {info : PackInfo}
    (hinfo : (t.onNewEvent n r id sz heads).packInfos n (t.lastPack n) = some info) :
    info.numOfEvents = (t.counted n r sz).numOfEvents ∧ info.size = (t.counted n r sz).size := by
  rw [packInfos_onNewEvent, if_pos ⟨rfl, rfl⟩, Option.some.injEq] at hinfo
  rw [← hinfo]
  split_ifs
  · exact ⟨rfl, rfl⟩
  · exact ⟨rfl, rfl⟩

lemma not_full_iff {info : PackInfo} :
    ¬ info.Full ↔ info.numOfEvents.toNat < 250 ∧ info.size.toNat < 2 ^ 21 := by
  rw [PackInfo.Full, not_or, UInt32.not_le, UInt32.not_le, UInt32.lt_iff_toNat_lt,
    UInt32.lt_iff_toNat_lt]
  rfl

section

variable (h : Counted size log t) (hpacked : Packed log t) (hfresh : Fresh log e)
include h hpacked hfresh

lemma Counted.others (he : e.epoch = n) {m i : ℕ} {info : PackInfo}
    (hlast : ¬ (m = n ∧ i = t.lastPack n)) (hinfo : t.packInfos m i = some info) :
    info.numOfEvents.toNat = ((t.onNewEvent n r e.hash sz heads).getPack m i).length ∧
      info.size.toNat = (t.onNewEvent n r e.hash sz heads).packSize size (log ++ [e]) m i := by
  rw [hpacked.length_onNewEvent hfresh, hpacked.packSize_onNewEvent hfresh he, if_neg hlast,
    if_neg hlast]
  exact h.infos m i info hinfo

lemma Counted.limit_onNewEvent (hrec : Recorded n t) (m i : ℕ) :
    ((t.onNewEvent n r e.hash sz heads).getPack m i).length ≤ maxPackEventsNum.toNat := by
  rw [hpacked.length_onNewEvent hfresh]
  split_ifs with hlast
  · obtain ⟨hnum, -, hfull⟩ := h.last hrec
    rw [hlast.1, hlast.2, ← hnum]
    exact (not_full_iff.mp hfull).1
  · exact h.limit m i

/-- The recorded size is exact as long as it fits in 32 bits. -/
lemma Counted.onNewEvent_iff (hrec : Recorded n t) (he : e.epoch = n) :
    Counted size (log ++ [e]) (t.onNewEvent n n e.hash (size e) heads) ↔
      t.packSize size log n (t.lastPack n) + size e < 2 ^ 32 := by
  obtain ⟨hnum, hsize, hfull⟩ := h.last hrec
  have hlt := (not_full_iff.mp hfull).1
  constructor
  · intro h'
    obtain ⟨info, hinfo⟩ : ∃ info, (t.onNewEvent n n e.hash (size e) heads).packInfos n
        (t.lastPack n) = some info := by
      simp
    obtain ⟨-, hsize'⟩ := h'.infos _ _ _ hinfo
    rw [hpacked.packSize_onNewEvent hfresh he, if_pos ⟨rfl, rfl⟩] at hsize'
    rw [← hsize']
    exact UInt32.toNat_lt _
  · intro hlt'
    refine ⟨fun m i info hinfo => ?_, h.limit_onNewEvent hpacked hfresh hrec⟩
    by_cases hlast : m = n ∧ i = t.lastPack n
    · obtain ⟨rfl, rfl⟩ := hlast
      obtain ⟨hnum', hsize'⟩ := packInfos_last hinfo
      rw [hnum', hsize', toNat_num_counted, toNat_size_counted, hpacked.length_onNewEvent hfresh,
        hpacked.packSize_onNewEvent hfresh he, if_pos ⟨rfl, rfl⟩, if_pos ⟨rfl, rfl⟩, hnum, hsize]
      omega
    · rw [packInfos_onNewEvent, if_neg hlast] at hinfo
      exact h.others hpacked hfresh he hlast hinfo

end

/-- The info of the pack is read under the next epoch, which has none. -/
lemma Recorded.counted_eq (hrec : Recorded n t) :
    t.counted n (n + 1) sz = ⟨t.lastPack n, UInt32.ofNat sz, 1, []⟩ := by
  rw [counted, getPackInfoOrDefault, hrec.later _ (Nat.lt_succ_self n)]
  simp

/-- An event that seals the epoch is counted only if it fills a pack of its own. -/
lemma Counted.seal_iff (h : Counted size log t) (hrec : Recorded n t) (hpacked : Packed log t)
    (hfresh : Fresh log e) (he : e.epoch = n) :
    Counted size (log ++ [e])
        ((t.onNewEvent n (n + 1) e.hash (size e) heads).onNewEpoch n (n + 1) heads) ↔
      t.packs n (t.lastPack n) = ∅ ∧ maxPackSize.toNat ≤ size e ∧
        size e < 2 ^ 32 := by
  have hfull : (t.counted n (n + 1) (size e)).Full ↔ 2 ^ 21 ≤ size e % 2 ^ 32 := by
    rw [← not_iff_not, not_full_iff, hrec.counted_eq]
    simp [UInt32.toNat_ofNat']
  generalize ht : t.onNewEvent n (n + 1) e.hash (size e) heads = t₁
  have hlength : ∀ m j, (t₁.getPack m j).length =
      (t.getPack m j).length + if m = n ∧ j = t.lastPack n then 1 else 0 :=
    ht ▸ hpacked.length_onNewEvent hfresh
  have hsizes : ∀ m j, t₁.packSize size (log ++ [e]) m j = t.packSize size log m j +
      if m = n ∧ j = t.lastPack n then size e else 0 :=
    ht ▸ hpacked.packSize_onNewEvent hfresh he
  have hread : ∀ j, t₁.getPackInfoOrDefault (n + 1) j = ⟨j, 0, 0, []⟩ := by
    intro j
    rw [← ht, getPackInfoOrDefault, packInfos_onNewEvent, if_neg (by omega),
      hrec.later _ (Nat.lt_succ_self n), Option.getD_none]
  have hnum : t₁.getPacksNumOrDefault n = t.lastPack n +
      if (t.counted n (n + 1) (size e)).Full then 1 else 0 := by
    rw [← ht, packsNum_onNewEvent]
    by_cases hf : (t.counted n (n + 1) (size e)).Full
    · simp [hf]
    · simp [hf]
  by_cases hf : (t.counted n (n + 1) (size e)).Full
  · -- the pack is pinned with the count of this event, and the next one with the info of none
    rw [if_pos hf] at hnum
    have hlast : ∀ info, t₁.packInfos n (t.lastPack n) = some info →
        info.numOfEvents.toNat = 1 ∧ info.size.toNat = size e % 2 ^ 32 := by
      intro info hinfo
      obtain ⟨hcount, hsize⟩ := packInfos_last (ht ▸ hinfo)
      rw [hcount, hsize, hrec.counted_eq]
      exact ⟨rfl, UInt32.toNat_ofNat'⟩
    obtain ⟨info₁, hinfo₁⟩ : ∃ info, t₁.packInfos n (t.lastPack n) = some info := by
      simp [← ht]
    have hinfos : ∀ m j, (t₁.onNewEpoch n (n + 1) heads).packInfos m j =
        if m = n ∧ j = t.lastPack n + 1 then
          some ⟨t.lastPack n + 1, 0, 0, heads⟩ else t₁.packInfos m j := by
      intro m j
      rw [packInfos_onNewEpoch, hnum, hread]
    constructor
    · intro h'
      obtain ⟨hcount, hsize⟩ := h'.infos n (t.lastPack n) info₁
        (by rw [hinfos, if_neg (by omega), hinfo₁])
      change _ = (t₁.getPack _ _).length at hcount
      change _ = t₁.packSize _ _ _ _ at hsize
      rw [(hlast _ hinfo₁).1, hlength, if_pos ⟨rfl, rfl⟩, length_getPack] at hcount
      have hempty : t.packs n (t.lastPack n) = ∅ := by
        rw [← Finset.card_eq_zero]
        omega
      rw [(hlast _ hinfo₁).2, hsizes, if_pos ⟨rfl, rfl⟩] at hsize
      simp only [packSize, hempty, Finset.notMem_empty, and_false, decide_false,
        List.filter_false, List.map_nil, List.sum_nil, Nat.zero_add] at hsize
      have hle := hfull.mp hf
      rw [hsize] at hle
      exact ⟨hempty, hle, by omega⟩
    · rintro ⟨hempty, hle, hlt⟩
      refine ⟨fun m j info hinfo => ?_, ht ▸ h.limit_onNewEvent hpacked hfresh hrec⟩
      change _ = (t₁.getPack m j).length ∧ _ = t₁.packSize size (log ++ [e]) m j
      rw [hinfos] at hinfo
      by_cases hnext : m = n ∧ j = t.lastPack n + 1
      · have hnone : t.packs m j = ∅ := by
          by_contra hne
          obtain ⟨id, hid⟩ := Finset.nonempty_iff_ne_empty.mpr hne
          have hle : j ≤ t.lastPack m := (hpacked.mem m j id hid).2.1
          rw [hnext.1] at hle
          omega
        rw [if_pos hnext, Option.some.injEq] at hinfo
        rw [← hinfo, hlength, hsizes, if_neg (by omega), if_neg (by omega), length_getPack,
          packSize, hnone]
        simp
      · rw [if_neg hnext] at hinfo
        by_cases hl : m = n ∧ j = t.lastPack n
        · obtain ⟨rfl, rfl⟩ := hl
          rw [(hlast _ hinfo).1, (hlast _ hinfo).2, hlength, hsizes, if_pos ⟨rfl, rfl⟩,
            if_pos ⟨rfl, rfl⟩, length_getPack, packSize, hempty, Nat.mod_eq_of_lt hlt]
          simp
        · rw [← ht, packInfos_onNewEvent, if_neg hl] at hinfo
          rw [← ht]
          exact h.others hpacked hfresh he hl hinfo
  · -- the info of an empty pack is written over that of this event
    rw [if_neg hf, Nat.add_zero] at hnum
    constructor
    · intro h'
      obtain ⟨hcount, -⟩ := h'.infos n (t.lastPack n) _
        (by rw [packInfos_onNewEpoch, hnum, if_pos ⟨rfl, rfl⟩, hread])
      rw [length_getPack, packs_onNewEpoch, ← length_getPack, hlength, if_pos ⟨rfl, rfl⟩] at hcount
      simp at hcount
    · rintro ⟨-, hle, hlt⟩
      refine absurd (hfull.mpr ?_) hf
      rw [Nat.mod_eq_of_lt hlt]
      exact hle

end PackTables

/-! ### Runs -/

namespace EventService

variable {κ ε : Type} {eng : Consensus κ ε} {size : Event → ℕ}

/-- The event can be counted: if it is new and the engine accepts it, then the size of the last pack
with it is below `2 ^ 32`; and if it seals the epoch, then it is large enough to fill a pack, and is
the first one of its pack. -/
def Countable (eng : Consensus κ ε) (size : Event → ℕ) (log : List Event) (s : EventService κ)
    (e : Event) : Prop :=
  ∀ engine, eng.processEvent e s.engine = .ok (none, engine) → e.hash ∉ headersOf log e.epoch →
    s.packs.packSize size log e.epoch (s.packs.getPacksNumOrDefault e.epoch) + size e < 2 ^ 32 ∧
    (eng.getEpoch engine ≠ eng.getEpoch s.engine →
      s.packs.packs e.epoch (s.packs.getPacksNumOrDefault e.epoch) = ∅ ∧
        maxPackSize.toNat ≤ size e)

section

variable {log : List Event} {s s' : EventService κ} {e : Event}

lemma Kept.counted_step (heng : eng.Sound) (h : Kept eng log s)
    (hrec : s.packs.Recorded (eng.getEpoch s.engine)) (hgiven : Given eng log s e)
    {err : Option (EventErr ε)} (hprocessed : Processed eng size e s err s') :
    s'.packs.Recorded (eng.getEpoch s'.engine) ∧
      (s.packs.Counted size log →
        (s'.packs.Counted size (if err.isNone then log ++ [e] else log) ↔
          Countable eng size log s e)) := by
  cases err with
  | some err =>
    obtain ⟨hrejects, hepoch, hreason⟩ := hprocessed
    rw [hrejects.packs_eq, hepoch]
    refine ⟨hrec, fun hcounted => iff_of_true hcounted fun engine hrun hnew => ?_⟩
    rcases hreason with hmem | ⟨err', hrun'⟩
    · have hepoch' := (heng.accepted hrun).1
      rw [hepoch'] at hmem hnew
      rw [h.current] at hmem
      exact absurd hmem hnew
    · rw [hrun] at hrun'
      cases hrun'
  | none =>
    obtain ⟨hnew, hrun, hconnects⟩ := hprocessed
    obtain ⟨hepoch, hnext⟩ := heng.accepted hrun
    have hfresh := h.fresh hgiven hepoch hnew
    rw [hepoch, h.current] at hnew
    rw [← hepoch] at hnext hrec hnew
    have hcountable : Countable eng size log s e ↔
        s.packs.packSize size log e.epoch (s.packs.getPacksNumOrDefault e.epoch) + size e <
          2 ^ 32 ∧ (eng.getEpoch s'.engine ≠ e.epoch →
            s.packs.packs e.epoch (s.packs.getPacksNumOrDefault e.epoch) = ∅ ∧
              maxPackSize.toNat ≤ size e) := by
      rw [Countable, ← hepoch]
      constructor
      · exact fun hall => hall _ hrun hnew
      · intro hthis engine hrun' _
        rw [hrun] at hrun'
        cases hrun'
        exact hthis
    rw [hcountable]
    rcases hnext with hstay | hseal
    · rw [(hconnects.stays hstay).1, hstay]
      refine ⟨hrec.onNewEvent, fun hcounted => ?_⟩
      exact (hcounted.onNewEvent_iff h.packed hfresh hrec rfl).trans (by simp)
    · rw [(hconnects.seals hseal).1, hseal]
      refine ⟨hrec.onNewEvent.onNewEpoch, fun hcounted => ?_⟩
      refine (hcounted.seal_iff hrec h.packed hfresh rfl).trans ?_
      constructor
      · rintro ⟨hempty, hle, hlt⟩
        refine ⟨?_, fun _ => ⟨hempty, hle⟩⟩
        simpa [PackTables.packSize, hempty] using hlt
      · rintro ⟨hlt, hseals⟩
        obtain ⟨hempty, hle⟩ := hseals (by omega)
        exact ⟨hempty, hle, by omega⟩

end

lemma forall_split_append {α : Type} (P : List α → α → Prop) (steps : List α) (step : α) :
    (∀ done x rest, steps ++ [step] = done ++ x :: rest → P done x) ↔
      (∀ done x rest, steps = done ++ x :: rest → P done x) ∧ P steps step := by
  constructor
  · intro h
    refine ⟨fun done x rest heq => h done x (rest ++ [step]) (by simp [heq]), ?_⟩
    exact h steps step [] rfl
  · rintro ⟨hall, hlast⟩ done x rest heq
    rcases List.eq_nil_or_concat rest with rfl | ⟨rest', y, rfl⟩
    · obtain ⟨rfl, hx⟩ := List.append_inj' heq rfl
      cases hx
      exact hlast
    · have heq' : steps ++ [step] = (done ++ x :: rest') ++ [y] := by simpa using heq
      exact hall done x rest' (List.append_inj' heq' rfl).1

/-- In a parents-first run of `processEvent` through any number of epochs, the infos of all packs
are right after each call if and only if each event can be counted when it is given. -/
theorem Run.counted_iff (heng : eng.Sound) {engine : κ} (hepoch : eng.getEpoch engine < 2 ^ 32)
    {steps : List (Step κ ε)} {s : EventService κ} (h : Run eng size engine steps s) :
    (∀ done step rest, steps = done ++ step :: rest →
        step.after.packs.Counted size (accepted (done ++ [step]))) ↔
      ∀ done step rest, steps = done ++ step :: rest →
        Countable eng size (accepted done) step.before step.event := by
  suffices hall : s.packs.Recorded (eng.getEpoch s.engine) ∧
      ((∀ done step rest, steps = done ++ step :: rest →
        step.after.packs.Counted size (accepted (done ++ [step]))) →
          s.packs.Counted size (accepted steps)) ∧
      ((∀ done step rest, steps = done ++ step :: rest →
        step.after.packs.Counted size (accepted (done ++ [step]))) ↔
      ∀ done step rest, steps = done ++ step :: rest →
        Countable eng size (accepted done) step.before step.event) from hall.2.2
  induction h with
  | start =>
    refine ⟨PackTables.recorded_empty _, fun _ => PackTables.counted_empty, ?_⟩
    simp
  | @call steps s s' e err hrun₀ hgiven hrun ih =>
    obtain ⟨hrec, hcounted, hiff⟩ := ih
    have hkept := hrun₀.kept heng hepoch
    obtain ⟨hrec', hstep⟩ := hkept.counted_step heng hrec hgiven
      (hkept.step hgiven heng hrun).1
    have hafter := forall_split_append
      (fun done (step : Step κ ε) => step.after.packs.Counted size (accepted (done ++ [step])))
      steps ⟨s, e, err, s'⟩
    have hbefore := forall_split_append
      (fun done (step : Step κ ε) => Countable eng size (accepted done) step.before step.event)
      steps ⟨s, e, err, s'⟩
    rw [hafter, hbefore]
    refine ⟨hrec', fun hlast => hlast.2, ?_⟩
    rw [← hiff]
    refine and_congr_right fun hbefore => ?_
    rw [accepted_append]
    exact hstep (hcounted hbefore)

end EventService

/-- Two small events, the second of which seals the epoch: the info of their pack has none. -/
theorem not_counted_sealedEpoch :
    ∃ s s', EventService.Run sealingEngine (fun _ => 100) 1
        [⟨.new 1, openingEvent, none, s⟩, ⟨s, sealingEvent, none, s'⟩] s' ∧
      ¬ s'.packs.Counted (fun _ => 100) [openingEvent, sealingEvent] := by
  obtain ⟨s, s', hsealed, hrun⟩ := exists_run_sealedEpoch
  refine ⟨s, s', hrun, fun hcounted => ?_⟩
  have hpack : (sealedEpoch.run (.new 1)).map (fun r =>
      ((r.2.packs.packInfos 1 1).map (·.numOfEvents), (r.2.packs.packs 1 1).card)) =
        .ok (some 0, 2) := by decide +kernel
  rw [hsealed] at hpack
  obtain ⟨hinfo, hlength⟩ := Prod.mk.inj (Except.ok.inj hpack)
  obtain ⟨info, hinfo, hnum⟩ := Option.map_eq_some_iff.mp hinfo
  have hcount := (hcounted.infos 1 1 info hinfo).1
  rw [hnum, PackTables.length_getPack, hlength] at hcount
  cases hcount

theorem counted_iff_sealedEpoch :
    ∃ (steps : List (EventService.Step ℕ String)) (s : EventService ℕ),
      EventService.Run sealingEngine (fun _ => 100) 1 steps s ∧
      EventService.accepted steps = [openingEvent, sealingEvent] ∧
      ((∀ done step rest, steps = done ++ step :: rest →
          step.after.packs.Counted (fun _ => 100) (EventService.accepted (done ++ [step]))) ↔
        ∀ done step rest, steps = done ++ step :: rest →
          EventService.Countable sealingEngine (fun _ => 100) (EventService.accepted done)
            step.before step.event) := by
  obtain ⟨s, s', -, hrun⟩ := exists_run_sealedEpoch
  exact ⟨_, s', hrun, rfl, EventService.Run.counted_iff sealingEngine_sound (by decide) hrun⟩

end Lachesis
