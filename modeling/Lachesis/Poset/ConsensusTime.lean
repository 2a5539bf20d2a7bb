import Lachesis.Poset.Blocks

/-!
# Consensus time

A frame gives its events times that grow with their Lamport times, from the time of the frame before
up to the median time of the atropos. The offset of these times may leave the range of `int64`, in
memory as well as in the database; the times themselves do not.
-/

namespace Lachesis

open Lachesis.Core

/-! ### The stored record of a frame -/

/-- `poset.frameInfoMarshaling` -/
structure FrameInfoMarshaling where
  timeOffset : UInt64
  timeRatio : UInt64
  lastConsensusTime : UInt64
  deriving DecidableEq, Repr

namespace FrameInfo

/-- `math.MaxInt64 / 2`, by which the offset is shifted. -/
def offsetShift : Int64 := 4611686018427387903

/-- `FrameInfo.EncodeRLP`, the record that is written. -/
def encodeRLP (f : FrameInfo) : FrameInfoMarshaling :=
  ⟨(f.timeOffset + offsetShift).toUInt64, f.timeRatio, f.lastConsensusTime⟩

/-- `FrameInfo.DecodeRLP`, from the record that was read. -/
def decodeRLP (m : FrameInfoMarshaling) : FrameInfo :=
  ⟨m.timeOffset.toInt64 - offsetShift, m.timeRatio, m.lastConsensusTime⟩

@[simp] lemma decodeRLP_encodeRLP (f : FrameInfo) : decodeRLP f.encodeRLP = f := by
  simp [decodeRLP, encodeRLP]

end FrameInfo

/-- The chain with the records of the frames read back from the database. -/
def Chain.reread (c : Chain) : Chain :=
  { c with
    main := { c.main with
      frameInfos := c.main.frameInfos.map fun _ info => FrameInfo.decodeRLP info.encodeRLP } }

@[simp] lemma Chain.reread_eq (c : Chain) : c.reread = c := by
  have hinfos : (c.main.frameInfos.map fun _ info => FrameInfo.decodeRLP info.encodeRLP) =
      c.main.frameInfos := by
    ext k info
    simp
  rw [Chain.reread, hinfos]

/-! ### The times of a frame -/

section Times

variable {prev median : Timestamp} {high low lamport : ℕ}

lemma toNat_max_one (x : UInt64) : (max x 1).toNat = max x.toNat 1 := by
  change (if x ≤ 1 then 1 else x).toNat = _
  rw [max_def]
  simp only [UInt64.le_iff_toNat_le, UInt64.toNat_one]
  split_ifs <;> rfl

lemma toNat_lamportPeriod (hhigh : high < 2 ^ 30) (hle : low ≤ high) :
    (max (UInt32.ofNat high - UInt32.ofNat low + 1) 1).toUInt64.toNat = high - low + 1 := by
  have hsub : UInt32.ofNat high - UInt32.ofNat low + 1 = UInt32.ofNat (high - low + 1) := by
    rw [UInt32.ofNat_add, UInt32.ofNat_sub hle]
    rfl
  have hnat : (UInt32.ofNat (high - low + 1)).toNat = high - low + 1 := by
    rw [UInt32.toNat_ofNat', Nat.mod_eq_of_lt (by omega)]
  have hmax : max (UInt32.ofNat (high - low + 1)) 1 = UInt32.ofNat (high - low + 1) := by
    change (if _ ≤ (1 : UInt32) then 1 else _) = _
    split_ifs with hone
    · rw [UInt32.le_iff_toNat_le, hnat] at hone
      exact UInt32.toNat_inj.mp (by rw [hnat]; exact (Nat.le_antisymm hone (Nat.le_add_left 1 _)).symm)
    · rfl
  rw [hsub, hmax, UInt32.toNat_toUInt64, hnat]

/-- The ratio of a frame: at least one nanosecond, and no more than fits up to the median time. -/
lemma fareTimestamps_ratio (prev median : Timestamp) (hhigh : high < 2 ^ 30) (hle : low ≤ high) :
    1 ≤ (fareTimestamps prev median high low).timeRatio.toNat ∧
      ((fareTimestamps prev median high low).timeRatio.toNat = 1 ∨
        prev.toNat + (fareTimestamps prev median high low).timeRatio.toNat * (high - low + 1) ≤
          median.toNat) := by
  simp only [fareTimestamps, toNat_max_one, UInt64.toNat_div, toNat_lamportPeriod hhigh hle]
  set T : Timestamp := if median < prev then 1 else max (median - prev) 1 with hT
  have hperiod : T.toNat = 1 ∨ prev.toNat + T.toNat = median.toNat := by
    rw [hT]
    split_ifs with hlt
    · exact Or.inl rfl
    · have hle := UInt64.le_iff_toNat_le.mp (UInt64.not_lt.mp hlt)
      rw [toNat_max_one, UInt64.toNat_sub_of_le _ _ (UInt64.not_lt.mp hlt)]
      omega
  refine ⟨le_max_right _ _, ?_⟩
  have hdiv := Nat.div_mul_le_self T.toNat (high - low + 1)
  rcases Nat.lt_or_ge 1 (T.toNat / (high - low + 1)) with hone | hone
  · rw [max_eq_left hone.le]
    have hle : T.toNat / (high - low + 1) ≤ T.toNat := Nat.div_le_self _ _
    rcases hperiod with hT | hT
    · omega
    · exact Or.inr (hT ▸ Nat.add_le_add_left hdiv _)
  · exact Or.inl (max_eq_right hone)

lemma calcConsensusTime_fareTimestamps (h : low ≤ lamport) :
    (fareTimestamps prev median high low).calcConsensusTime lamport =
      prev + (fareTimestamps prev median high low).timeRatio * UInt64.ofNat (lamport - low + 1) := by
  have hsub : UInt64.ofNat (lamport - low + 1) = UInt64.ofNat lamport - UInt64.ofNat low + 1 := by
    rw [UInt64.ofNat_add, UInt64.ofNat_sub h]
    rfl
  simp only [FrameInfo.calcConsensusTime, fareTimestamps, Int64.toUInt64_add, Int64.toUInt64_mul,
    Int64.toUInt64_sub, UInt64.toUInt64_toInt64, Int64.toUInt64_ofNat', hsub]
  grind

variable (hprev : prev.toNat < 2 ^ 62) (hmedian : median.toNat < 2 ^ 62) (hhigh : high < 2 ^ 30)
include hprev hmedian hhigh

/-- The time of a Lamport time of the frame, without wrapping. -/
lemma toNat_calcConsensusTime (hle : low ≤ lamport) (hle' : lamport ≤ high) :
    ((fareTimestamps prev median high low).calcConsensusTime lamport).toNat =
      prev.toNat + (fareTimestamps prev median high low).timeRatio.toNat * (lamport - low + 1) := by
  obtain ⟨hpos, hratio⟩ := fareTimestamps_ratio prev median hhigh (hle.trans hle')
  rw [calcConsensusTime_fareTimestamps hle]
  set R := (fareTimestamps prev median high low).timeRatio
  have hbound : R.toNat * (lamport - low + 1) ≤ R.toNat * (high - low + 1) :=
    Nat.mul_le_mul_left _ (by omega)
  have hfits : prev.toNat + R.toNat * (high - low + 1) < 2 ^ 64 := by
    rcases hratio with hone | hfits
    · rw [hone]
      omega
    · omega
  have hcount : (UInt64.ofNat (lamport - low + 1)).toNat = lamport - low + 1 := by
    rw [UInt64.toNat_ofNat', Nat.mod_eq_of_lt (by omega)]
  have hproduct : (R * UInt64.ofNat (lamport - low + 1)).toNat = R.toNat * (lamport - low + 1) := by
    rw [UInt64.toNat_mul, hcount, Nat.mod_eq_of_lt (by omega)]
  rw [UInt64.toNat_add, hproduct, Nat.mod_eq_of_lt (by omega)]

lemma calcConsensusTime_lt {lamport' : ℕ} (hlow : low ≤ lamport) (hlt : lamport < lamport')
    (hle : lamport' ≤ high) :
    (fareTimestamps prev median high low).calcConsensusTime lamport <
      (fareTimestamps prev median high low).calcConsensusTime lamport' := by
  obtain ⟨hpos, -⟩ := fareTimestamps_ratio prev median hhigh (hlow.trans (hlt.le.trans hle))
  rw [UInt64.lt_iff_toNat_lt,
    toNat_calcConsensusTime hprev hmedian hhigh hlow (hlt.le.trans hle),
    toNat_calcConsensusTime hprev hmedian hhigh (hlow.trans hlt.le) hle]
  exact Nat.add_lt_add_left (Nat.mul_lt_mul_of_pos_left (by omega) hpos) _

lemma prev_lt_calcConsensusTime (hle : low ≤ lamport) (hle' : lamport ≤ high) :
    prev < (fareTimestamps prev median high low).calcConsensusTime lamport := by
  obtain ⟨hpos, -⟩ := fareTimestamps_ratio prev median hhigh (hle.trans hle')
  rw [UInt64.lt_iff_toNat_lt, toNat_calcConsensusTime hprev hmedian hhigh hle hle']
  exact Nat.lt_add_of_pos_right (Nat.mul_pos hpos (Nat.succ_pos _))

lemma toNat_lastConsensusTime_le (hle : low ≤ high) :
    (fareTimestamps prev median high low).lastConsensusTime.toNat ≤
      max median.toNat (prev.toNat + (high - low + 1)) := by
  obtain ⟨-, hratio⟩ := fareTimestamps_ratio prev median hhigh hle
  change ((fareTimestamps prev median high low).calcConsensusTime high).toNat ≤ _
  rw [toNat_calcConsensusTime hprev hmedian hhigh hle le_rfl]
  rcases hratio with hone | hfits
  · rw [hone, one_mul]
    exact le_max_right _ _
  · exact hfits.trans (le_max_left _ _)

end Times

/-! ### The times of a decided frame -/

namespace Chain

variable {cfg : Config} {es : EpochState} {c₀ c c' : Chain} {ds : List (EventID × Block)}
variable {a : EventID} {block : Block} {sealed : Bool} {f : ℕ} {highest : ℕ → BranchSeq}
variable {D : Finset EventID} {reported : List Event} {s : Confirming}

/-- The event is confirmed on the way from one chain to the other. -/
def Confirms (c c' : Chain) (x : EventID) : Prop := c.confirmedOn x = 0 ∧ c'.confirmedOn x ≠ 0

/-- The least and the greatest Lamport time of some events; zero if there are none. -/
structure LamportBounds (getEvent : GetEvent) (P : EventID → Prop) (low high : ℕ) : Prop where
  le : ∀ x, P x → low ≤ lamportOf getEvent x ∧ lamportOf getEvent x ≤ high
  attained : (∃ x, P x) →
    (∃ x, P x ∧ lamportOf getEvent x = low) ∧ ∃ x, P x ∧ lamportOf getEvent x = high
  empty : (∀ x, ¬ P x) → low = 0 ∧ high = 0

lemma lamportOf_hash {getEvent : GetEvent} {e : Event} (he : getEvent e.hash = some e) :
    lamportOf getEvent e.hash = e.lamport := by
  simp [lamportOf, he]

section

variable (h : c.BlockConfirmed cfg es f a highest block c' reported s) (hf : f ≠ 0)
  (hD : Connected cfg es D) (ha : a ∈ D)
include h hf hD ha

lemma BlockConfirmed.confirms_iff {x : EventID} :
    Confirms c c' x ↔ ∃ e ∈ reported, e.hash = x := by
  classical
  have hmark := h.marks x
  constructor
  · rintro ⟨hbefore, hafter⟩
    have hsees : (cfg.dag es).Sees a x := by
      by_contra hnot
      rw [if_neg fun hx => hnot hx.1] at hmark
      exact hafter (hmark.trans hbefore)
    obtain ⟨e, he, hhash, -⟩ := hD.checked.exists_event (hD.checked.valid.sees_mem ha hsees)
    subst hhash
    exact ⟨e, (h.reported_iff e).mpr ⟨he, hsees, hbefore⟩, rfl⟩
  · rintro ⟨e, he, rfl⟩
    obtain ⟨-, hsees, hbefore⟩ := (h.reported_iff e).mp he
    rw [if_pos ⟨hsees, hbefore⟩] at hmark
    exact ⟨hbefore, hmark ▸ hf⟩

lemma BlockConfirmed.lamportBounds :
    LamportBounds (cfg.events es) (Confirms c c') s.lowestLamport s.highestLamport := by
  have hstored : ∀ e ∈ reported, lamportOf (cfg.events es) e.hash = e.lamport :=
    fun e he => lamportOf_hash ((h.reported_iff e).mp he).1
  refine ⟨fun x hx => ?_, fun hx => ?_, fun hx => ?_⟩
  · obtain ⟨e, he, rfl⟩ := (h.confirms_iff hf hD ha).mp hx
    rw [hstored e he]
    exact ⟨h.collects.lowest_le e he, h.collects.le_highest e he⟩
  · obtain ⟨x, hx⟩ := hx
    obtain ⟨e, he, -⟩ := (h.confirms_iff hf hD ha).mp hx
    obtain ⟨⟨e₁, he₁, hhigh⟩, e₂, he₂, hlow⟩ := h.collects.attained (List.ne_nil_of_mem he)
    exact ⟨⟨e₂.hash, (h.confirms_iff hf hD ha).mpr ⟨e₂, he₂, rfl⟩, (hstored e₂ he₂).trans hlow⟩,
      e₁.hash, (h.confirms_iff hf hD ha).mpr ⟨e₁, he₁, rfl⟩, (hstored e₁ he₁).trans hhigh⟩
  · obtain ⟨hhigh, hlow⟩ := h.collects.empty (List.eq_nil_iff_forall_not_mem.mpr fun e he =>
      hx e.hash ((h.confirms_iff hf hD ha).mpr ⟨e, he, rfl⟩))
    exact ⟨hlow, hhigh⟩

end

lemma LamportBounds.bounded {P : EventID → Prop} {low high : ℕ}
    (h : LamportBounds (cfg.events es) P low high) (hD : Connected cfg es D)
    (hP : ∀ x, P x → x ∈ D) : low ≤ high ∧ high < 2 ^ 30 := by
  by_cases hne : ∃ x, P x
  · obtain ⟨-, x, hx, hhigh⟩ := h.attained hne
    obtain ⟨e, he, rfl, hchecked⟩ := hD.checked.exists_event (hP x hx)
    have hlt := hchecked.lamport_lt
    unfold Basiccheck.maxIndex at hlt
    have hle := (h.le _ hx).1
    rw [lamportOf_hash he] at hhigh hle
    omega
  · obtain ⟨rfl, rfl⟩ := h.empty (not_exists.mp hne)
    decide

lemma BlockConfirmed.getConsensusTime (h : c.BlockConfirmed cfg es f a highest block c' reported s)
    (hf : f ≠ 0)
    (hD : Connected cfg es D) (ha : a ∈ D) {info : FrameInfo}
    (hinfo : c'.frameInfo es.epochN f = some info) {x : EventID} (hx : Confirms c c' x) :
    c'.getConsensusTime x =
      .ok (some (info.calcConsensusTime (lamportOf (cfg.events es) x))) := by
  obtain ⟨e, he, rfl⟩ := (h.confirms_iff hf hD ha).mp hx
  obtain ⟨hstored, hsees, hbefore⟩ := (h.reported_iff e).mp he
  have hmem := hD.checked.valid.sees_mem ha hsees
  obtain ⟨e', he', -, hchecked⟩ := hD.checked.exists_event hmem
  obtain rfl : e = e' := Option.some.inj (hstored.symm.trans he')
  have hlt := hchecked.lamport_lt
  unfold Basiccheck.maxIndex at hlt
  have hmark : c'.main.confirmedEvent.confirmedOn e.hash = f := by
    classical
    exact (h.marks e.hash).trans (if_pos ⟨hsees, hbefore⟩)
  simp only [Chain.getConsensusTime, hmark, if_neg hf, hD.epoch _ hmem, hinfo, lamportOf_hash hstored]
  rw [Event.lamport_hash (by omega)]

/-- Whatever frame of an epoch is decided: if the time of the frame before and the median time of the
atropos are below `2 ^ 62`, the time of the frame is greater than that of the frame before, and no
more than the median time or, if that is behind, one nanosecond for each Lamport time of the frame.
The events that the frame confirms get times between the two, growing with their Lamport times. -/
theorem FramesDecided.consensusTime_grows (h : FramesDecided cfg es c₀ ds false c)
    (hdecided : FrameDecided cfg es (ds.length + 1) a c block sealed c') :
    ∃ prev header info low high, c.reread.frameConsensusTime ds.length = .ok prev ∧
      cfg.events es a = some header ∧
      c'.reread.frameInfo es.epochN (ds.length + 1) = some info ∧
      LamportBounds (cfg.events es) (Confirms c c') low high ∧
      (prev.toNat < 2 ^ 62 → header.medianTime.toNat < 2 ^ 62 →
        prev < info.lastConsensusTime ∧
        info.lastConsensusTime.toNat ≤
          max header.medianTime.toNat (prev.toNat + (high - low + 1)) ∧
        ∃ time : EventID → Timestamp, ∀ x, Confirms c c' x →
          c'.reread.getConsensusTime x = .ok (some (time x)) ∧ prev < time x ∧
          time x ≤ info.lastConsensusTime ∧
          ∀ y, Confirms c c' y →
            lamportOf (cfg.events es) x < lamportOf (cfg.events es) y →
            time x < time y) := by
  obtain ⟨hes, hmarked, -⟩ := h.inv
  have hlen : ds.length = (ds.map Prod.fst).length := by simp
  rw [hlen] at hdecided
  obtain ⟨-, -, D, highest, reported, s, hD, ha, -, hblock⟩ := hdecided.spec (hes rfl) hmarked
  rw [← hlen] at hblock
  obtain ⟨header, prev, hheader, hprev, hinfos⟩ := hblock.frameInfo
  have hbounds := hblock.lamportBounds (Nat.succ_ne_zero _) hD ha
  have hconfirms : ∀ x, Confirms c c' x → x ∈ D := by
    intro x hx
    obtain ⟨e, he, rfl⟩ := (hblock.confirms_iff (Nat.succ_ne_zero _) hD ha).mp hx
    exact hD.checked.valid.sees_mem ha ((hblock.reported_iff e).mp he).2.1
  obtain ⟨hle, hhigh⟩ := hbounds.bounded hD hconfirms
  have hinfo : c'.frameInfo es.epochN (ds.length + 1) =
      some (fareTimestamps prev header.medianTime s.highestLamport s.lowestLamport) := by
    rw [Chain.frameInfo, hinfos, frameInfo_insert, if_pos ⟨rfl, rfl⟩]
  simp only [reread_eq]
  refine ⟨prev, header, _, s.lowestLamport, s.highestLamport, hprev, hheader, hinfo, hbounds, ?_⟩
  intro hprev hmedian
  refine ⟨?_, ?_, fun x => (fareTimestamps prev header.medianTime s.highestLamport
    s.lowestLamport).calcConsensusTime (lamportOf (cfg.events es) x), fun x hx => ?_⟩
  · exact prev_lt_calcConsensusTime hprev hmedian hhigh hle le_rfl
  · exact toNat_lastConsensusTime_le hprev hmedian hhigh hle
  · obtain ⟨hlow, hlast⟩ := hbounds.le x hx
    refine ⟨?_, prev_lt_calcConsensusTime hprev hmedian hhigh hlow hlast, ?_, fun y hy hlt =>
      calcConsensusTime_lt hprev hmedian hhigh hlow hlt (hbounds.le y hy).2⟩
    · exact hblock.getConsensusTime (Nat.succ_ne_zero _) hD ha hinfo hx
    · rcases hlast.lt_or_eq with hlt | heq
      · exact UInt64.le_of_lt (calcConsensusTime_lt hprev hmedian hhigh hlow hlt le_rfl)
      · simp only [heq]
        exact UInt64.le_refl _

theorem FramesDecided.consensusTime_grows_forked :
    ∃ block sealed c info, FrameDecided Forked.config Forked.epoch 1 Index.Forked.aboveLeft.hash
        Forked.chain block sealed c ∧
      c.reread.frameInfo 1 1 = some info ∧ 1 < info.lastConsensusTime := by
  obtain ⟨highest, hread⟩ := Forked.atroposRead
  have htime : Forked.chain.frameConsensusTime ([] : List EventID).length = .ok 1 := rfl
  obtain ⟨block, sealed, c, hdecided⟩ := exists_frameDecided rfl Forked.markedBy hread htime
  obtain ⟨prev, header, info, low, high, hprev, hheader, hinfo, -, hgrows⟩ :=
    consensusTime_grows (.start rfl fun _ _ => rfl) hdecided
  obtain rfl : 1 = prev := Except.ok.inj (htime.symm.trans (by simpa using hprev))
  have hstored : Forked.config.input Forked.epoch.epochN Index.Forked.aboveLeft.hash =
      some Index.Forked.aboveLeft := by decide +kernel
  obtain rfl := Option.some.inj (hstored.symm.trans hheader)
  exact ⟨block, sealed, c, info, hdecided, hinfo, (hgrows (by decide) (by decide)).1⟩

end Chain

end Lachesis
