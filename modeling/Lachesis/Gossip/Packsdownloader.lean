import Lachesis.Inter.Event

/-!
# The download of packs from a peer

A peer offers packs of events with consecutive indexes. The downloader keeps the infos of some packs
by index, and searches for the lowest pack with unknown heads by bisection: it asks for the info of
a pack in the middle between the highest known pack and the next unknown one. Infos below the
highest known pack are forgotten.

Indexes are `uint32` in the code. The sums below stay under the number of packs, except where
`tryToSync` asks for a pack beyond it.
-/

namespace Lachesis

open Std

/-- `packInfoData` -/
structure PackInfoData where
  epoch : ℕ
  index : ℕ
  heads : List EventID
  deriving DecidableEq, Repr

/-- The requests to a peer. -/
inductive PeerRequest
  | requestPackInfos (epoch : ℕ) (indexes : List ℕ)
  | requestPack (epoch index : ℕ)
  | dropPeer
  deriving DecidableEq, Repr

/-- `PeerPacksDownloader`; times are in nanoseconds, and there is none before the first request. -/
structure PeerPacksDownloader where
  myEpoch : ℕ
  packsNum : ℕ
  packInfos : ExtTreeMap ℕ PackInfoData
  fetchingInfo : ExtTreeMap ℕ ℕ
  fetchingFull : ExtTreeMap ℕ ℕ
  prevRequest : Option ℕ

/-- What `binarySearchReq` returns. -/
structure PackRequest where
  requestIndex : ℕ
  requestFull : Bool
  syncedUp : Bool
  deriving DecidableEq, Repr

/-- The info of a pack is requested. -/
def PackRequest.requestInfo (r : PackRequest) : Bool := !r.syncedUp && !r.requestFull

namespace PeerPacksDownloader

def forceSyncPeriod : ℕ := 300000000000

def arriveTimeout : ℕ := 10000000000

def maxPeerPacks : ℕ := 128

def maxFetchingFullPacks : ℕ := 3

/-- `math.MaxInt32` -/
def maxInt32 : ℕ := 2147483647

def newPeer (myEpoch : ℕ) : PeerPacksDownloader := ⟨myEpoch, 0, ∅, ∅, ∅, none⟩

section Callbacks

variable (onlyNotConnected : List EventID → List EventID)

/-- Whether all heads of the pack are known. -/
def allKnown (info : PackInfoData) : Bool := (onlyNotConnected info.heads).length = 0

/-! ### The search -/

/-- The loop of `binarySearchReq` over the infos from the highest index on; `prevIdx` is the index
before. -/
def searchLoop (packsNum : ℕ) : List (ℕ × PackInfoData) → Option ℕ → PackRequest
  | [], none => ⟨1, false, false⟩
  | [], some prevIdx => if prevIdx = 1 then ⟨1, true, false⟩ else ⟨prevIdx / 2, false, false⟩
  | (packIdx, packInfo) :: rest, prevIdx =>
    if allKnown onlyNotConnected packInfo then
      match prevIdx with
      | none =>
        if packsNum ≤ packIdx then ⟨packIdx, false, true⟩
        else
          let nextReq := packIdx + (packsNum - packIdx) / 2
          ⟨if nextReq ≤ packIdx then packIdx + 1 else nextReq, false, false⟩
      | some prev =>
        if packIdx + 1 = prev then ⟨packIdx + 1, true, false⟩
        else
          let nextReq := packIdx + (prev - packIdx) / 2
          ⟨if nextReq ≤ packIdx then packIdx + 1 else nextReq, false, false⟩
    else searchLoop packsNum rest (some packIdx)

def binarySearchReq (d : PeerPacksDownloader) : PackRequest :=
  searchLoop onlyNotConnected d.packsNum d.packInfos.toList.reverse none

/-! ### Known packs -/

/-- The loop of `sweepKnown` over the infos from the highest index on: what is to be removed. -/
def sweepLoop : List (ℕ × PackInfoData) → (allKnownMet : Bool) → List ℕ
  | [], _ => []
  | (packIdx, packInfo) :: rest, allKnownMet =>
    if allKnownMet then packIdx :: sweepLoop rest true
    else sweepLoop rest (allKnown onlyNotConnected packInfo)

def forgetPack (d : PeerPacksDownloader) (index : ℕ) : PeerPacksDownloader :=
  { d with
    packInfos := d.packInfos.erase index
    fetchingInfo := d.fetchingInfo.erase index
    fetchingFull := d.fetchingFull.erase index }

def sweepKnown (d : PeerPacksDownloader) : PeerPacksDownloader :=
  (sweepLoop onlyNotConnected d.packInfos.toList.reverse false).foldl forgetPack d

/-! ### Requests -/

/-- Whether enough time has passed since the request, if there was one. -/
def timedOut (now : ℕ) (prevRequestTime : Option ℕ) (timeout : ℕ) : Bool :=
  prevRequestTime.all fun time => timeout ≤ now - time

def timedRequestFullPack (now index : ℕ) (pinned : Bool) (d : PeerPacksDownloader) :
    List PeerRequest × PeerPacksDownloader :=
  if timedOut now d.fetchingFull[index]? arriveTimeout then
    ([.requestPack d.myEpoch index],
      { d with
        prevRequest := some now
        fetchingFull := if pinned then d.fetchingFull.insert index now else d.fetchingFull })
  else ([], d)

def timedRequestPackInfo (now index : ℕ) (d : PeerPacksDownloader) :
    List PeerRequest × PeerPacksDownloader :=
  if timedOut now d.fetchingInfo[index]? arriveTimeout then
    ([.requestPackInfos d.myEpoch [index]],
      { d with prevRequest := some now, fetchingInfo := d.fetchingInfo.insert index now })
  else ([], d)

/-- The loop of `tryToSync` that requests a few packs in parallel, for at most `n` packs. -/
def requestFullPacks (now : ℕ) : (n index : ℕ) → PeerPacksDownloader →
    List PeerRequest × PeerPacksDownloader
  | 0, _, d => ([], d)
  | n + 1, i, d =>
    if i ≤ d.packsNum then
      let full := timedRequestFullPack now i true d
      let info :=
        if i + 1 ≤ d.packsNum ∧ (i + 1) ∉ d.packInfos then timedRequestPackInfo now (i + 1) full.2
        else ([], full.2)
      let rest := requestFullPacks now n (i + 1) info.2
      (full.1 ++ info.1 ++ rest.1, rest.2)
    else ([], d)

def tryToSync (overloadedPeer : Bool) (now : ℕ) (d : PeerPacksDownloader) :
    List PeerRequest × PeerPacksDownloader :=
  if overloadedPeer then ([], d)
  else
    let req := d.binarySearchReq onlyNotConnected
    if req.syncedUp then
      -- a stalled download tries a pack that is not pinned
      if d.prevRequest.all fun time => forceSyncPeriod < now - time then
        let next := (d.packsNum + 1) % 2 ^ 32
        let info := timedRequestPackInfo now next d
        let full := timedRequestFullPack now next false info.2
        (info.1 ++ full.1, full.2)
      else ([], d)
    else if req.requestFull then requestFullPacks now maxFetchingFullPacks req.requestIndex d
    else timedRequestPackInfo now req.requestIndex d

/-! ### Notifications -/

/-- The case `notifyInfo` of the loop. -/
def onPackInfo (overloadedPeer : Bool) (now : ℕ) (packInfo : PackInfoData)
    (d : PeerPacksDownloader) : List PeerRequest × PeerPacksDownloader :=
  if d.myEpoch ≠ packInfo.epoch then ([], d)
  else
    let d := { d with packsNum := max d.packsNum packInfo.index }
    let drops := if maxPeerPacks < d.packInfos.size then [PeerRequest.dropPeer] else []
    if packInfo.index ≤ 0 ∨ maxInt32 ≤ packInfo.index then (drops, d)
    else
      let d := { d with
        packInfos := d.packInfos.insert packInfo.index packInfo
        fetchingInfo := d.fetchingInfo.erase packInfo.index }
      let synced := d.tryToSync onlyNotConnected overloadedPeer now
      (drops ++ synced.1, synced.2.sweepKnown onlyNotConnected)

/-! ### The distance to the lowest unknown pack -/

/-- There is an info under the index, and its pack is known. -/
def knownAt (d : PeerPacksDownloader) (i : ℕ) : Bool :=
  d.packInfos[i]?.any (allKnown onlyNotConnected)

/-- There is an info under the index, and its pack is not known. -/
def unknownAt (d : PeerPacksDownloader) (i : ℕ) : Bool :=
  d.packInfos[i]?.any fun info => !allKnown onlyNotConnected info

def highestKnown (d : PeerPacksDownloader) : Option ℕ :=
  (d.packInfos.keys.filter (d.knownAt onlyNotConnected)).max?

/-- The next index of an unknown pack above it. -/
def nextUnknown (d : PeerPacksDownloader) : Option ℕ :=
  (d.packInfos.keys.filter fun i => (d.highestKnown onlyNotConnected).getD 0 < i ∧
    d.unknownAt onlyNotConnected i).min?

/-- How far the next unknown pack, or else the last pack, is from the highest known one. -/
def distance (d : PeerPacksDownloader) : ℕ :=
  (d.nextUnknown onlyNotConnected).getD d.packsNum - (d.highestKnown onlyNotConnected).getD 0

/-- The answer of `binarySearchReq` from these two indexes. -/
def requestBetween (packsNum : ℕ) : (known next : Option ℕ) → PackRequest
  | none, none => ⟨1, false, false⟩
  | none, some next => if next = 1 then ⟨1, true, false⟩ else ⟨next / 2, false, false⟩
  | some known, none =>
    if packsNum ≤ known then ⟨known, false, true⟩
    else ⟨max (known + (packsNum - known) / 2) (known + 1), false, false⟩
  | some known, some next =>
    if known + 1 = next then ⟨next, true, false⟩ else ⟨known + (next - known) / 2, false, false⟩

section

-- `missing` is the callback `onlyNotConnected`
variable {missing : List EventID → List EventID} {d : PeerPacksDownloader} {h i n : ℕ}

lemma mem_keys_iff : i ∈ d.packInfos.keys ↔ ∃ info, d.packInfos[i]? = some info := by
  rw [ExtTreeMap.mem_keys, ← ExtTreeMap.isSome_getElem?_iff_mem, Option.isSome_iff_exists]

lemma knownAt_iff : d.knownAt missing i = true ↔
    ∃ info, d.packInfos[i]? = some info ∧ allKnown missing info = true := by
  rw [knownAt, Option.any_eq_true]

lemma unknownAt_iff : d.unknownAt missing i = true ↔
    ∃ info, d.packInfos[i]? = some info ∧ allKnown missing info = false := by
  simp [unknownAt, Option.any_eq_true]

lemma mem_keys_of_knownAt (hi : d.knownAt missing i = true) : i ∈ d.packInfos.keys := by
  obtain ⟨info, hinfo, -⟩ := knownAt_iff.mp hi
  exact mem_keys_iff.mpr ⟨info, hinfo⟩

lemma mem_keys_of_unknownAt (hi : d.unknownAt missing i = true) : i ∈ d.packInfos.keys := by
  obtain ⟨info, hinfo, -⟩ := unknownAt_iff.mp hi
  exact mem_keys_iff.mpr ⟨info, hinfo⟩

lemma highestKnown_eq_some : d.highestKnown missing = some h ↔
    d.knownAt missing h = true ∧ ∀ i, d.knownAt missing i = true → i ≤ h := by
  rw [highestKnown, List.max?_eq_some_iff]
  constructor
  · rintro ⟨hmem, hmax⟩
    exact ⟨(List.mem_filter.mp hmem).2,
      fun i hi => hmax i (List.mem_filter.mpr ⟨mem_keys_of_knownAt hi, hi⟩)⟩
  · rintro ⟨hh, hmax⟩
    exact ⟨List.mem_filter.mpr ⟨mem_keys_of_knownAt hh, hh⟩,
      fun i hi => hmax i (List.mem_filter.mp hi).2⟩

lemma highestKnown_eq_none : d.highestKnown missing = none ↔
    ∀ i, ¬ d.knownAt missing i = true := by
  rw [highestKnown, List.max?_eq_none_iff, List.filter_eq_nil_iff]
  exact ⟨fun hno i hi => hno i (mem_keys_of_knownAt hi) hi, fun hno i _ => hno i⟩

lemma nextUnknown_eq_some : d.nextUnknown missing = some n ↔
    ((d.highestKnown missing).getD 0 < n ∧ d.unknownAt missing n = true) ∧
      ∀ i, (d.highestKnown missing).getD 0 < i → d.unknownAt missing i = true →
        n ≤ i := by
  rw [nextUnknown, List.min?_eq_some_iff]
  simp only [List.mem_filter, decide_eq_true_eq]
  exact ⟨fun hn => ⟨hn.1.2, fun i hlt hi => hn.2 i ⟨mem_keys_of_unknownAt hi, hlt, hi⟩⟩,
    fun hn => ⟨⟨mem_keys_of_unknownAt hn.1.2, hn.1⟩, fun i hi => hn.2 i hi.2.1 hi.2.2⟩⟩

lemma nextUnknown_eq_none : d.nextUnknown missing = none ↔
    ∀ i, (d.highestKnown missing).getD 0 < i →
      ¬ d.unknownAt missing i = true := by
  rw [nextUnknown, List.min?_eq_none_iff, List.filter_eq_nil_iff]
  simp only [decide_eq_true_eq, not_and]
  exact ⟨fun hno i hlt hi => hno i (mem_keys_of_unknownAt hi) hlt hi, fun hno i _ => hno i⟩

/-! ### What the search finds -/

lemma descending (d : PeerPacksDownloader) :
    d.packInfos.toList.reverse.Pairwise fun a b => b.1 < a.1 := by
  rw [List.pairwise_reverse]
  exact d.packInfos.ordered_keys_toList.imp Nat.compare_eq_lt.mp

lemma mem_descending {x : ℕ × PackInfoData} :
    x ∈ d.packInfos.toList.reverse ↔ d.packInfos[x.1]? = some x.2 := by
  rw [List.mem_reverse, ← ExtTreeMap.mem_toList_iff_getElem?_eq_some]

lemma searchLoop_append (packsNum : ℕ) {as rest : List (ℕ × PackInfoData)}
    (has : ∀ a ∈ as, allKnown missing a.2 = false) (prevIdx : Option ℕ) :
    searchLoop missing packsNum (as ++ rest) prevIdx =
      searchLoop missing packsNum rest ((as.getLast?.map (·.1)).or prevIdx) := by
  induction as generalizing prevIdx with
  | nil => rfl
  | cons a as ih =>
    obtain ⟨packIdx, packInfo⟩ := a
    have hunknown : allKnown missing packInfo = false := has _ List.mem_cons_self
    simp only [List.cons_append, searchLoop, hunknown, if_neg Bool.false_ne_true,
      ih fun x hx => has x (by simp [hx]), List.getLast?_cons]
    cases as.getLast? <;> rfl

lemma next_eq {as rest : List (ℕ × PackInfoData)}
    (hsplit : d.packInfos.toList.reverse = as ++ rest)
    (has : ∀ a ∈ as, allKnown missing a.2 = false)
    (hrest : ∀ a ∈ rest, a.1 ≤ (d.highestKnown missing).getD 0)
    (habove : ∀ a ∈ as, (d.highestKnown missing).getD 0 < a.1) :
    d.nextUnknown missing = as.getLast?.map (·.1) := by
  have hdesc := d.descending
  rw [hsplit, List.pairwise_append] at hdesc
  have hmem : ∀ i, (d.highestKnown missing).getD 0 < i →
      d.unknownAt missing i = true → ∃ a ∈ as, a.1 = i := by
    intro i hlt hi
    obtain ⟨info, hinfo, -⟩ := unknownAt_iff.mp hi
    have hx : (i, info) ∈ as ++ rest := hsplit ▸ mem_descending.mpr hinfo
    rcases List.mem_append.mp hx with hx | hx
    · exact ⟨_, hx, rfl⟩
    · exact absurd (hrest _ hx) (by simpa using hlt)
  cases hlast : as.getLast? with
  | none =>
    rw [List.getLast?_eq_none_iff.mp hlast] at hmem
    exact nextUnknown_eq_none.mpr fun i hlt hi => by simpa using hmem i hlt hi
  | some x =>
    obtain ⟨ys, rfl⟩ := List.getLast?_eq_some_iff.mp hlast
    have hx : x ∈ ys ++ [x] := by simp
    have hinfo := mem_descending.mp (hsplit ▸ List.mem_append_left rest hx)
    refine nextUnknown_eq_some.mpr ⟨⟨habove x hx, unknownAt_iff.mpr ⟨_, hinfo, has x hx⟩⟩, ?_⟩
    intro i hlt hi
    obtain ⟨a, ha, rfl⟩ := hmem i hlt hi
    rcases List.mem_append.mp ha with ha | ha
    · exact ((List.pairwise_append.mp hdesc.1).2.2 a ha x (by simp)).le
    · rw [List.mem_singleton.mp ha]

/-- What `binarySearchReq` returns depends on the highest known and the next unknown pack. -/
theorem binarySearchReq_eq (hpos : ∀ i ∈ d.packInfos.keys, 1 ≤ i) :
    d.binarySearchReq missing = requestBetween d.packsNum
      (d.highestKnown missing) (d.nextUnknown missing) := by
  have hdesc := d.descending
  rw [binarySearchReq]
  cases hfind : d.packInfos.toList.reverse.find? fun x => allKnown missing x.2 with
  | none =>
    have hall : ∀ a ∈ d.packInfos.toList.reverse, allKnown missing a.2 = false := by
      simpa using List.find?_eq_none.mp hfind
    have hhigh : d.highestKnown missing = none := by
      refine highestKnown_eq_none.mpr fun i hi => ?_
      obtain ⟨info, hinfo, hyes⟩ := knownAt_iff.mp hi
      rw [hall (i, info) (mem_descending.mpr hinfo)] at hyes
      cases hyes
    have hnext := next_eq (List.append_nil _).symm hall (by simp) (by
      intro a ha
      rw [hhigh]
      exact hpos _ (mem_keys_iff.mpr ⟨_, mem_descending.mp ha⟩))
    rw [← List.append_nil d.packInfos.toList.reverse, searchLoop_append d.packsNum hall,
      Option.or_none, ← hnext, hhigh]
    cases d.nextUnknown missing <;> rfl
  | some x =>
    obtain ⟨hx, as, bs, hsplit, has⟩ := List.find?_eq_some_iff_append.mp hfind
    replace has : ∀ a ∈ as, allKnown missing a.2 = false := by simpa using has
    rw [hsplit, List.pairwise_append, List.pairwise_cons] at hdesc
    have hhigh : d.highestKnown missing = some x.1 := by
      have hmem : d.packInfos[x.1]? = some x.2 := mem_descending.mp (by rw [hsplit]; simp)
      refine highestKnown_eq_some.mpr ⟨knownAt_iff.mpr ⟨_, hmem, hx⟩, fun i hi => ?_⟩
      obtain ⟨info, hinfo, hyes⟩ := knownAt_iff.mp hi
      have hi' : (i, info) ∈ as ++ x :: bs := hsplit ▸ mem_descending.mpr hinfo
      rcases List.mem_append.mp hi' with ha | hb
      · rw [has _ ha] at hyes
        cases hyes
      · rcases List.mem_cons.mp hb with rfl | hb
        · exact le_rfl
        · exact (hdesc.2.1.1 _ hb).le
    have hnext := next_eq hsplit has (by
      rw [hhigh]
      intro a ha
      rcases List.mem_cons.mp ha with rfl | hb
      · exact le_rfl
      · exact (hdesc.2.1.1 _ hb).le) (by
      rw [hhigh]
      exact fun a ha => hdesc.2.2 a ha x List.mem_cons_self)
    rw [hsplit, searchLoop_append d.packsNum has, Option.or_none, ← hnext, hhigh]
    obtain ⟨known, info⟩ := x
    cases hn : d.nextUnknown missing with
    | none =>
      simp only [searchLoop, requestBetween, hx, if_true]
      split_ifs with hle hstep
      · rfl
      · rw [max_eq_right (by omega)]
      · rw [max_eq_left (by omega)]
    | some next =>
      have hlt := (nextUnknown_eq_some.mp hn).1.1
      rw [hhigh, Option.getD_some] at hlt
      simp only [searchLoop, requestBetween, hx, if_true]
      split_ifs with heq hstep
      · rw [heq]
      · omega
      · rfl

/-! ### Progress -/

variable (missing) in
lemma known_le_next (hpos : ∀ i ∈ d.packInfos.keys, 1 ≤ i ∧ i ≤ d.packsNum) :
    (d.highestKnown missing).getD 0 ≤ (d.nextUnknown missing).getD d.packsNum ∧
      (d.nextUnknown missing).getD d.packsNum ≤ d.packsNum := by
  have hhigh : (d.highestKnown missing).getD 0 ≤ d.packsNum := by
    cases h : d.highestKnown missing with
    | none => exact Nat.zero_le _
    | some h' => exact (hpos _ (mem_keys_of_knownAt (highestKnown_eq_some.mp h).1)).2
  cases h : d.nextUnknown missing with
  | none => exact ⟨hhigh, le_rfl⟩
  | some n =>
    have hn := nextUnknown_eq_some.mp h
    exact ⟨hn.1.1.le, (hpos _ (mem_keys_of_unknownAt hn.1.2)).2⟩

/-- A pack info between both ends of the search brings them closer. -/
lemma distance_insert {d' : PeerPacksDownloader} {info : PackInfoData}
    (hnum : d'.packsNum = d.packsNum) (hinfos : d'.packInfos = d.packInfos.insert i info)
    (hlow : (d.highestKnown missing).getD 0 < i)
    (hhigh : ∀ j, (d.highestKnown missing).getD 0 < j →
      d.unknownAt missing j = true → i < j) :
    d'.distance missing =
        (d.nextUnknown missing).getD d.packsNum - i ∨
      d'.distance missing = i - (d.highestKnown missing).getD 0 := by
  have hget : ∀ j, d'.packInfos[j]? = if i = j then some info else d.packInfos[j]? := fun j => by
    rw [hinfos, ExtTreeMap.getElem?_insert]
    simp only [Nat.compare_eq_eq]
  have hother : ∀ j, i ≠ j → d'.knownAt missing j = d.knownAt missing j ∧
      d'.unknownAt missing j = d.unknownAt missing j := fun j hj => by
    simp only [knownAt, unknownAt, hget, if_neg hj, and_self]
  have hknown_lt : ∀ j, d.knownAt missing j = true →
      j ≤ (d.highestKnown missing).getD 0 := by
    intro j hj
    cases h : d.highestKnown missing with
    | none => exact absurd hj (highestKnown_eq_none.mp h j)
    | some h' => exact (highestKnown_eq_some.mp h).2 j hj
  cases hyes : allKnown missing info with
  | true =>
    left
    have hhighest : d'.highestKnown missing = some i := by
      refine highestKnown_eq_some.mpr ⟨by simp [knownAt, hget, hyes], fun j hj => ?_⟩
      by_cases heq : i = j
      · exact heq.ge
      · rw [(hother j heq).1] at hj
        exact (hknown_lt j hj).trans hlow.le
    have hnext : d'.nextUnknown missing = d.nextUnknown missing := by
      cases h : d.nextUnknown missing with
      | none =>
        refine nextUnknown_eq_none.mpr fun j hlt hj => ?_
        rw [hhighest, Option.getD_some] at hlt
        rw [(hother j hlt.ne).2] at hj
        exact nextUnknown_eq_none.mp h j (hlow.trans hlt) hj
      | some n =>
        obtain ⟨⟨hn, hunknown⟩, hmin⟩ := nextUnknown_eq_some.mp h
        have hin := hhigh n hn hunknown
        refine nextUnknown_eq_some.mpr ⟨⟨by rwa [hhighest], ?_⟩, fun j hlt hj => ?_⟩
        · rwa [(hother n hin.ne).2]
        · rw [hhighest, Option.getD_some] at hlt
          rw [(hother j hlt.ne).2] at hj
          exact hmin j (hlow.trans hlt) hj
    rw [distance, hhighest, hnext, hnum, Option.getD_some]
  | false =>
    right
    have hhighest : d'.highestKnown missing = d.highestKnown missing := by
      have hi : ¬ d'.knownAt missing i = true := by simp [knownAt, hget, hyes]
      cases h : d.highestKnown missing with
      | none =>
        refine highestKnown_eq_none.mpr fun j hj => ?_
        have heq : i ≠ j := by rintro rfl; exact hi hj
        exact highestKnown_eq_none.mp h j ((hother j heq).1 ▸ hj)
      | some h' =>
        obtain ⟨hh', hmax⟩ := highestKnown_eq_some.mp h
        rw [h, Option.getD_some] at hlow
        refine highestKnown_eq_some.mpr ⟨by rwa [(hother h' hlow.ne').1], fun j hj => ?_⟩
        have heq : i ≠ j := by rintro rfl; exact hi hj
        exact hmax j ((hother j heq).1 ▸ hj)
    have hnext : d'.nextUnknown missing = some i := by
      refine nextUnknown_eq_some.mpr ⟨⟨by rwa [hhighest], by simp [unknownAt, hget, hyes]⟩,
        fun j hlt hj => ?_⟩
      by_cases heq : i = j
      · exact heq.le
      · rw [hhighest] at hlt
        exact (hhigh j hlt ((hother j heq).2 ▸ hj)).le
    rw [distance, hhighest, hnext, Option.getD_some]

lemma forgetting {d' : PeerPacksDownloader} (hnum : d'.packsNum = d.packsNum)
    (hsub : ∀ (i : ℕ) info, d'.packInfos[i]? = some info → d.packInfos[i]? = some info)
    (hkeep : ∀ i, (d.highestKnown missing).getD 0 ≤ i →
      d'.packInfos[i]? = d.packInfos[i]?) :
    d'.highestKnown missing = d.highestKnown missing ∧
      d'.nextUnknown missing = d.nextUnknown missing ∧
      d'.distance missing = d.distance missing := by
  have hknown : ∀ i, d'.knownAt missing i = true →
      d.knownAt missing i = true := by
    intro i hi
    obtain ⟨info, hinfo, hyes⟩ := knownAt_iff.mp hi
    exact knownAt_iff.mpr ⟨info, hsub i info hinfo, hyes⟩
  have hhigh : d'.highestKnown missing = d.highestKnown missing := by
    cases h : d.highestKnown missing with
    | none =>
      exact highestKnown_eq_none.mpr fun i hi => highestKnown_eq_none.mp h i (hknown i hi)
    | some k =>
      obtain ⟨hk, hmax⟩ := highestKnown_eq_some.mp h
      refine highestKnown_eq_some.mpr ⟨?_, fun i hi => hmax i (hknown i hi)⟩
      rw [knownAt, hkeep k (by rw [h, Option.getD_some])]
      exact hk
  have hunknown : ∀ i, (d.highestKnown missing).getD 0 < i →
      d'.unknownAt missing i = d.unknownAt missing i := fun i hi => by
    rw [unknownAt, unknownAt, hkeep i hi.le]
  have hnext : d'.nextUnknown missing = d.nextUnknown missing := by
    cases h : d.nextUnknown missing with
    | none =>
      refine nextUnknown_eq_none.mpr fun i hlt hi => ?_
      rw [hhigh] at hlt
      exact nextUnknown_eq_none.mp h i hlt (hunknown i hlt ▸ hi)
    | some n =>
      obtain ⟨⟨hlt, hn⟩, hmin⟩ := nextUnknown_eq_some.mp h
      refine nextUnknown_eq_some.mpr ⟨⟨by rwa [hhigh], by rwa [hunknown n hlt]⟩, fun i hi' hi => ?_⟩
      rw [hhigh] at hi'
      exact hmin i hi' (hunknown i hi' ▸ hi)
  exact ⟨hhigh, hnext, by rw [distance, distance, hhigh, hnext, hnum]⟩

/-- Only packs below a known one are swept. -/
lemma mem_sweepLoop {l : List (ℕ × PackInfoData)} (hl : l.Pairwise fun a b => b.1 < a.1)
    (hi : i ∈ sweepLoop missing l false) :
    ∃ x ∈ l, allKnown missing x.2 = true ∧ i < x.1 := by
  have hall : ∀ l : List (ℕ × PackInfoData),
      sweepLoop missing l true = l.map Prod.fst := by
    intro l
    induction l with
    | nil => rfl
    | cons a l ih => simp only [sweepLoop, if_true, ih, List.map_cons]
  induction l with
  | nil => cases hi
  | cons a l ih =>
    rw [List.pairwise_cons] at hl
    simp only [sweepLoop, if_neg Bool.false_ne_true] at hi
    cases hyes : allKnown missing a.2 with
    | true =>
      rw [hyes, hall] at hi
      obtain ⟨x, hx, rfl⟩ := List.mem_map.mp hi
      exact ⟨a, List.mem_cons_self, hyes, hl.1 x hx⟩
    | false =>
      rw [hyes] at hi
      obtain ⟨x, hx, hknown, hlt⟩ := ih hl.2 hi
      exact ⟨x, List.mem_cons_of_mem _ hx, hknown, hlt⟩

lemma foldl_forgetPack (l : List ℕ) (d : PeerPacksDownloader) :
    (l.foldl forgetPack d).packsNum = d.packsNum ∧
      ∀ i, (l.foldl forgetPack d).packInfos[i]? = if i ∈ l then none else d.packInfos[i]? := by
  induction l generalizing d with
  | nil => simp
  | cons a l ih =>
    refine ⟨(ih _).1, fun i => ?_⟩
    rw [List.foldl_cons, (ih _).2, forgetPack, ExtTreeMap.getElem?_erase]
    by_cases hil : i ∈ l
    · simp [hil]
    · simp only [hil, if_false, List.mem_cons, or_false, Nat.compare_eq_eq, eq_comm (a := i)]

variable (missing) in
lemma sweepKnown_keeps (d : PeerPacksDownloader) :
    (d.sweepKnown missing).packsNum = d.packsNum ∧
      (∀ (i : ℕ) info, (d.sweepKnown missing).packInfos[i]? = some info →
        d.packInfos[i]? = some info) ∧
      ∀ i, (d.highestKnown missing).getD 0 ≤ i →
        (d.sweepKnown missing).packInfos[i]? = d.packInfos[i]? := by
  obtain ⟨hnum, hget⟩ :=
    foldl_forgetPack (sweepLoop missing d.packInfos.toList.reverse false) d
  refine ⟨hnum, fun i info hi => ?_, fun i hle => ?_⟩
  · rw [sweepKnown, hget i] at hi
    split_ifs at hi
    exact hi
  · rw [sweepKnown, hget i, if_neg]
    intro hmem
    obtain ⟨x, hx, hyes, hlt⟩ := mem_sweepLoop d.descending hmem
    have hknown := knownAt_iff.mpr ⟨x.2, mem_descending.mp hx, hyes⟩
    cases h : d.highestKnown missing with
    | none => exact highestKnown_eq_none.mp h _ hknown
    | some k =>
      have := (highestKnown_eq_some.mp h).2 _ hknown
      rw [h, Option.getD_some] at hle
      omega

lemma timedRequestPackInfo_infos (now i : ℕ) (d : PeerPacksDownloader) :
    (timedRequestPackInfo now i d).2.packsNum = d.packsNum ∧
      (timedRequestPackInfo now i d).2.packInfos = d.packInfos := by
  rw [timedRequestPackInfo]
  split_ifs <;> exact ⟨rfl, rfl⟩

lemma timedRequestFullPack_infos (now i : ℕ) (pinned : Bool) (d : PeerPacksDownloader) :
    (timedRequestFullPack now i pinned d).2.packsNum = d.packsNum ∧
      (timedRequestFullPack now i pinned d).2.packInfos = d.packInfos := by
  rw [timedRequestFullPack]
  split_ifs <;> exact ⟨rfl, rfl⟩

lemma requestFullPacks_infos (now n i : ℕ) (d : PeerPacksDownloader) :
    (requestFullPacks now n i d).2.packsNum = d.packsNum ∧
      (requestFullPacks now n i d).2.packInfos = d.packInfos := by
  induction n generalizing i d with
  | zero => exact ⟨rfl, rfl⟩
  | succ n ih =>
    rw [requestFullPacks]
    split_ifs with hle hinfo
    · simp only [ih, timedRequestPackInfo_infos, timedRequestFullPack_infos, and_self]
    · simp only [ih, timedRequestFullPack_infos, and_self]
    · exact ⟨rfl, rfl⟩

variable (missing) in
lemma tryToSync_infos (overloadedPeer : Bool) (now : ℕ) (d : PeerPacksDownloader) :
    (d.tryToSync missing overloadedPeer now).2.packsNum = d.packsNum ∧
      (d.tryToSync missing overloadedPeer now).2.packInfos = d.packInfos := by
  simp only [tryToSync]
  split_ifs
  · exact ⟨rfl, rfl⟩
  · simp only [timedRequestPackInfo_infos, timedRequestFullPack_infos, and_self]
  · exact ⟨rfl, rfl⟩
  · exact requestFullPacks_infos ..
  · exact timedRequestPackInfo_infos ..

lemma onPackInfo_distance (overloadedPeer : Bool) (now : ℕ) {info : PackInfoData}
    (hepoch : info.epoch = d.myEpoch) (hle : info.index ≤ d.packsNum)
    (hlt : info.index < maxInt32)
    (hlow : (d.highestKnown missing).getD 0 < info.index)
    (hhigh : ∀ j, (d.highestKnown missing).getD 0 < j →
      d.unknownAt missing j = true → info.index < j) :
    (d.onPackInfo missing overloadedPeer now info).2.distance missing ≤
      max ((d.nextUnknown missing).getD d.packsNum - info.index)
        (info.index - (d.highestKnown missing).getD 0) := by
  rw [onPackInfo, if_neg (not_not.mpr hepoch.symm), if_neg (by omega)]
  simp only [max_eq_left hle]
  generalize hd₁ : { d with
    packInfos := d.packInfos.insert info.index info
    fetchingInfo := d.fetchingInfo.erase info.index } = d₁
  have hsync := tryToSync_infos missing overloadedPeer now d₁
  have hswept := sweepKnown_keeps missing
    (d₁.tryToSync missing overloadedPeer now).2
  rw [(forgetting hswept.1 hswept.2.1 hswept.2.2).2.2]
  rw [(forgetting hsync.1 (by simp [hsync.2]) (by simp [hsync.2])).2.2]
  have hnum : d₁.packsNum = d.packsNum := by rw [← hd₁]
  have hinfos : d₁.packInfos = d.packInfos.insert info.index info := by rw [← hd₁]
  have hins := distance_insert hnum hinfos hlow hhigh
  rcases hins with hins | hins <;> rw [hins]
  · exact le_max_left _ _
  · exact le_max_right _ _

/-- The requested index is in the middle. -/
lemma requestInfo_middle (hindex : ∀ i ∈ d.packInfos.keys, 1 ≤ i ∧ i ≤ d.packsNum)
    (hreq : (d.binarySearchReq missing).requestInfo = true)
    (hi : (d.binarySearchReq missing).requestIndex = i) :
    (d.highestKnown missing).getD 0 < i ∧
      (∀ j, (d.highestKnown missing).getD 0 < j →
        d.unknownAt missing j = true → i < j) ∧
      (d.packInfos.keys = [] ∧ i = 1 ∨ i ≤ d.packsNum ∧
        max ((d.nextUnknown missing).getD d.packsNum - i)
          (i - (d.highestKnown missing).getD 0) ≤
            (d.distance missing + 1) / 2) := by
  have hle := known_le_next missing hindex
  rw [binarySearchReq_eq fun i hi => (hindex i hi).1] at hreq hi
  rw [distance]
  cases hh : d.highestKnown missing with
  | none =>
    cases hn : d.nextUnknown missing with
    | none =>
      rw [hh, hn] at hi
      obtain rfl : 1 = i := hi
      have hno : ∀ j, ¬ d.unknownAt missing j = true := fun j hj =>
        nextUnknown_eq_none.mp hn j
          (by rw [hh]; exact (hindex j (mem_keys_of_unknownAt hj)).1) hj
      refine ⟨Nat.one_pos, fun j _ hj => absurd hj (hno j), .inl ⟨?_, rfl⟩⟩
      refine List.eq_nil_iff_forall_not_mem.mpr fun j hj => ?_
      obtain ⟨info, hinfo⟩ := mem_keys_iff.mp hj
      cases hyes : allKnown missing info with
      | true => exact highestKnown_eq_none.mp hh j (knownAt_iff.mpr ⟨info, hinfo, hyes⟩)
      | false => exact hno j (unknownAt_iff.mpr ⟨info, hinfo, hyes⟩)
    | some n =>
      obtain ⟨⟨hpos, -⟩, hmin⟩ := nextUnknown_eq_some.mp hn
      rw [hh, Option.getD_none] at hpos
      rw [hh, hn, Option.getD_some] at hle
      rw [hh] at hmin
      rw [hh, hn, requestBetween] at hreq hi
      split_ifs at hreq hi with hone
      · cases hreq
      · obtain rfl : n / 2 = i := hi
        simp only [Option.getD_none, Option.getD_some] at hmin ⊢
        refine ⟨by omega, fun j hlt hj => ?_, .inr ⟨by omega, max_le (by omega) (by omega)⟩⟩
        have := hmin j hlt hj
        omega
  | some h =>
    cases hn : d.nextUnknown missing with
    | none =>
      have hno := nextUnknown_eq_none.mp hn
      rw [hh, hn, requestBetween] at hreq hi
      split_ifs at hreq hi with hp
      · cases hreq
      · have hi' : max (h + (d.packsNum - h) / 2) (h + 1) = i := hi
        simp only [hh, Option.getD_none, Option.getD_some] at hno ⊢
        refine ⟨by omega, fun j hlt hj => absurd hj (hno j hlt),
          .inr ⟨by omega, max_le (by omega) (by omega)⟩⟩
    | some n =>
      obtain ⟨⟨hlt, -⟩, hmin⟩ := nextUnknown_eq_some.mp hn
      rw [hh, Option.getD_some] at hlt
      rw [hh, hn, Option.getD_some] at hle
      rw [hh] at hmin
      rw [hh, hn, requestBetween] at hreq hi
      split_ifs at hreq hi with hone
      · cases hreq
      · obtain rfl : h + (n - h) / 2 = i := hi
        simp only [Option.getD_some] at hmin hle ⊢
        refine ⟨by omega, fun j hj hu => ?_, .inr ⟨by omega, max_le (by omega) (by omega)⟩⟩
        have := hmin j hj hu
        omega

lemma not_mem_between (hlow : (d.highestKnown missing).getD 0 < i)
    (hhigh : ∀ j, (d.highestKnown missing).getD 0 < j →
      d.unknownAt missing j = true → i < j) : i ∉ d.packInfos.keys := by
  intro hi
  obtain ⟨info, hinfo⟩ := mem_keys_iff.mp hi
  cases hyes : allKnown missing info with
  | true =>
    have hknown := knownAt_iff.mpr ⟨info, hinfo, hyes⟩
    cases hh : d.highestKnown missing with
    | none => exact highestKnown_eq_none.mp hh i hknown
    | some h =>
      rw [hh, Option.getD_some] at hlow
      exact absurd ((highestKnown_eq_some.mp hh).2 i hknown) (by omega)
  | false => exact absurd (hhigh i hlow (unknownAt_iff.mpr ⟨info, hinfo, hyes⟩)) (lt_irrefl i)

/-- A pack is fetched when it is the lowest unknown one. -/
lemma requestFull_lowest (hindex : ∀ i ∈ d.packInfos.keys, 1 ≤ i)
    (hreq : (d.binarySearchReq missing).requestFull = true) :
    d.unknownAt missing (d.binarySearchReq missing).requestIndex = true ∧
      ((d.binarySearchReq missing).requestIndex = 1 ∨ d.knownAt missing
        ((d.binarySearchReq missing).requestIndex - 1) = true) := by
  rw [binarySearchReq_eq hindex] at hreq ⊢
  cases hn : d.nextUnknown missing with
  | none =>
    cases hh : d.highestKnown missing <;> rw [hh, hn, requestBetween] at hreq
    · cases hreq
    · split_ifs at hreq
  | some n =>
    have hunknown := (nextUnknown_eq_some.mp hn).1.2
    cases hh : d.highestKnown missing with
    | none =>
      rw [hh, hn, requestBetween] at hreq
      split_ifs at hreq with hone
      subst hone
      exact ⟨hunknown, .inl rfl⟩
    | some h =>
      have hknown := (highestKnown_eq_some.mp hh).1
      rw [hh, hn, requestBetween] at hreq
      split_ifs at hreq with hone
      subst hone
      simp only [requestBetween, if_true]
      exact ⟨hunknown, .inr hknown⟩

/-- The search ends at the last pack. -/
lemma syncedUp_known (hindex : ∀ i ∈ d.packInfos.keys, 1 ≤ i)
    (hreq : (d.binarySearchReq missing).syncedUp = true) :
    (d.binarySearchReq missing).requestFull = false ∧
      ∃ i, d.packsNum ≤ i ∧ d.knownAt missing i = true := by
  rw [binarySearchReq_eq hindex] at hreq ⊢
  cases hh : d.highestKnown missing with
  | none =>
    cases hn : d.nextUnknown missing <;> rw [hh, hn, requestBetween] at hreq
    · cases hreq
    · split_ifs at hreq
  | some h =>
    cases hn : d.nextUnknown missing <;> rw [hh, hn, requestBetween] at hreq <;>
      split_ifs at hreq with hle
    rw [requestBetween, if_pos hle]
    exact ⟨rfl, h, hle, (highestKnown_eq_some.mp hh).1⟩

end

/-- The search stops only when synced up, requests the lowest unknown pack in full, and asks
otherwise for an info that is not stored; before the first info it asks for that of pack 1. The
answer to such a request halves the distance, and sweeping changes nothing. -/
theorem binarySearchReq_lowest (d : PeerPacksDownloader)
    (hindex : ∀ i ∈ d.packInfos.keys, 1 ≤ i ∧ i ≤ d.packsNum) :
    let req := d.binarySearchReq onlyNotConnected
    (req.syncedUp = true → req.requestFull = false ∧
      ∃ i, d.packsNum ≤ i ∧ d.knownAt onlyNotConnected i = true) ∧
    (req.requestFull = true → d.unknownAt onlyNotConnected req.requestIndex = true ∧
      (req.requestIndex = 1 ∨ d.knownAt onlyNotConnected (req.requestIndex - 1) = true)) ∧
    (req.requestInfo = true → req.requestIndex ∉ d.packInfos.keys ∧ 1 ≤ req.requestIndex ∧
      (req.requestIndex ≤ d.packsNum ∨ d.packInfos.keys = [] ∧ req.requestIndex = 1)) ∧
    (req.requestInfo = true → d.packInfos.keys ≠ [] →
      ∀ info : PackInfoData, info.epoch = d.myEpoch → info.index = req.requestIndex →
        info.index < maxInt32 → ∀ overloadedPeer now,
          (d.onPackInfo onlyNotConnected overloadedPeer now info).2.distance onlyNotConnected ≤
            (d.distance onlyNotConnected + 1) / 2) ∧
    (d.sweepKnown onlyNotConnected).binarySearchReq onlyNotConnected = req ∧
    (d.sweepKnown onlyNotConnected).distance onlyNotConnected = d.distance onlyNotConnected := by
  intro req
  have hpos : ∀ i ∈ d.packInfos.keys, 1 ≤ i := fun i hi => (hindex i hi).1
  refine ⟨syncedUp_known hpos, requestFull_lowest hpos, fun hreq => ?_, ?_, ?_⟩
  · obtain ⟨hlow, hhigh, hle⟩ := requestInfo_middle hindex hreq rfl
    refine ⟨not_mem_between hlow hhigh, Nat.succ_le_of_lt (Nat.zero_lt_of_lt hlow), ?_⟩
    rcases hle with hempty | hle
    · exact .inr hempty
    · exact .inl hle.1
  · intro hreq hstored info hepoch hi hlt overloadedPeer now
    obtain ⟨hlow, hhigh, hle⟩ := requestInfo_middle hindex hreq hi.symm
    rcases hle with hempty | hle
    · exact absurd hempty.1 hstored
    · exact (onPackInfo_distance overloadedPeer now hepoch hle.1 hlt hlow hhigh).trans hle.2
  · obtain ⟨hnum, hsub, hkeep⟩ := sweepKnown_keeps onlyNotConnected d
    obtain ⟨hhigh, hnext, hdist⟩ := forgetting hnum hsub hkeep
    refine ⟨?_, hdist⟩
    rw [binarySearchReq_eq, hnum, hhigh, hnext, ← binarySearchReq_eq hpos]
    intro i hi
    obtain ⟨info, hinfo⟩ := mem_keys_iff.mp hi
    exact hpos i (mem_keys_iff.mpr ⟨info, hsub i info hinfo⟩)

end Callbacks

/-- A peer with eight packs, the first of which is known. -/
def firstKnown : PeerPacksDownloader :=
  { newPeer 1 with packsNum := 8, packInfos := (∅ : ExtTreeMap ℕ PackInfoData).insert 1 ⟨1, 1, []⟩ }

theorem binarySearchReq_lowest_firstKnown :
    firstKnown.binarySearchReq id = ⟨4, false, false⟩ ∧ firstKnown.distance id = 7 ∧
      (firstKnown.onPackInfo id false 0 ⟨1, 4, []⟩).2.distance id ≤ 4 := by
  have hreq : firstKnown.binarySearchReq id = ⟨4, false, false⟩ := by decide +kernel
  have hdist : firstKnown.distance id = 7 := by decide +kernel
  have hlowest := binarySearchReq_lowest id firstKnown (by decide +kernel)
  refine ⟨hreq, hdist, ?_⟩
  have hle := hlowest.2.2.2.1 (by rw [hreq]; rfl) (by decide +kernel) ⟨1, 4, []⟩ rfl
    (by rw [hreq]) (by decide) false 0
  rwa [hdist] at hle

/-- A new peer has no packs yet: the requested index is not among them. -/
theorem newPeer_requests_beyond :
    (∀ i ∈ (newPeer 1).packInfos.keys, 1 ≤ i ∧ i ≤ (newPeer 1).packsNum) ∧
      ((newPeer 1).binarySearchReq id).requestInfo = true ∧
      ¬ ((newPeer 1).binarySearchReq id).requestIndex ≤ (newPeer 1).packsNum := by
  decide +kernel

end PeerPacksDownloader

end Lachesis
