import Lachesis.Gossip.EpochStore
import Lachesis.Poset.Sequence

/-!
# Packs

The events of an epoch are put into packs in the order in which they are connected, so that a peer
can ask for them in portions. A pack that is full is pinned with the current heads, and so is the
last one when the epoch is sealed. All events of a pinned pack and of the packs before it are heads
of it or their ancestors, so a peer that has connected the heads has connected the packs.

The engine may seal the epoch while it processes an event. The store of the epoch is then dropped
after the packs have been pinned.
-/

namespace Lachesis

open Lachesis.Core

/-- `Consensus` -/
structure Consensus (κ ε : Type) where
  processEvent : Event → κ → Except Fault (Option ε × κ)
  getEpoch : κ → ℕ

/-- An engine accepts only events of its epoch, and may go over to the next one then. -/
structure Consensus.Sound {κ ε : Type} (eng : Consensus κ ε) : Prop where
  accepted : ∀ {e k k'}, eng.processEvent e k = .ok (none, k') → e.epoch = eng.getEpoch k ∧
    (eng.getEpoch k' = eng.getEpoch k ∨ eng.getEpoch k' = eng.getEpoch k + 1)
  rejected : ∀ {e k err k'}, eng.processEvent e k = .ok (some err, k') →
    eng.getEpoch k' = eng.getEpoch k

/-- `PackInfo` -/
structure PackInfo where
  index : ℕ
  size : UInt32
  numOfEvents : UInt32
  heads : List EventID
  deriving DecidableEq, Repr

def maxPackEventsNum : UInt32 := 250

def maxPackSize : UInt32 := 2 * 1024 * 1024

/-- The tables `Packs`, `PackInfos` and `PacksNum` of the store. -/
structure PackTables where
  packs : (epoch idx : ℕ) → Finset EventID
  packInfos : (epoch idx : ℕ) → Option PackInfo
  packsNum : (epoch : ℕ) → Option ℕ

namespace PackTables

def empty : PackTables := ⟨fun _ _ => ∅, fun _ _ => none, fun _ => none⟩

/-- `Store.GetPackInfoOrDefault` -/
def getPackInfoOrDefault (t : PackTables) (epoch idx : ℕ) : PackInfo :=
  (t.packInfos epoch idx).getD ⟨idx, 0, 0, []⟩

/-- `Store.SetPackInfo` -/
def setPackInfo (t : PackTables) (epoch idx : ℕ) (value : PackInfo) : PackTables :=
  { t with
    packInfos := Function.update t.packInfos epoch
      (Function.update (t.packInfos epoch) idx (some value)) }

/-- `Store.AddToPack` -/
def addToPack (t : PackTables) (epoch idx : ℕ) (e : EventID) : PackTables :=
  { t with
    packs := Function.update t.packs epoch
      (Function.update (t.packs epoch) idx (insert e (t.packs epoch idx))) }

/-- `Store.GetPack`, in the order of the keys. -/
def getPack (t : PackTables) (epoch idx : ℕ) : List EventID := (t.packs epoch idx).sort

/-- `Store.GetPacksNumOrDefault` -/
def getPacksNumOrDefault (t : PackTables) (epoch : ℕ) : ℕ := (t.packsNum epoch).getD 1

/-- `Store.SetPacksNum` -/
def setPacksNum (t : PackTables) (epoch num : ℕ) : PackTables :=
  { t with packsNum := Function.update t.packsNum epoch (some num) }

end PackTables

/-- The part of `Service` that `processEvent` works on: the engine, the stores of the epochs and the
packs. -/
structure EventService (κ : Type) where
  engine : κ
  epochs : EpochStores
  packs : PackTables

abbrev EventServiceM (κ : Type) := StateT (EventService κ) (Except Fault)

/-- The errors of `processEvent`. -/
inductive EventErr (ε : Type)
  /-- `eventcheck.ErrAlreadyConnectedEvent` -/
  | alreadyConnectedEvent
  | engine (err : ε)
  deriving DecidableEq, Repr

namespace EventService

variable {κ ε : Type}

/-- A call of the stores of the epochs. -/
def stores {α : Type} (m : EpochStoresM α) : EventServiceM κ α :=
  zoom (fun s => s.epochs) (fun epochs s => { s with epochs }) m

/-- A write to the tables of the packs. -/
def modifyPacks (f : PackTables → PackTables) : EventServiceM κ Unit :=
  modify fun s => { s with packs := f s.packs }

section Model

variable (eng : Consensus κ ε) (size : Event → ℕ)

/-- `Service.packsOnNewEvent`; the info is read under the epoch of the engine. -/
def packsOnNewEvent (e : Event) (epoch : ℕ) : EventServiceM κ Unit := do
  let s ← get
  let packIdx := s.packs.getPacksNumOrDefault epoch
  let packInfo := s.packs.getPackInfoOrDefault (eng.getEpoch s.engine) packIdx
  modifyPacks fun t => t.addToPack epoch packIdx e.hash
  let packInfo := { packInfo with
    index := packIdx
    numOfEvents := packInfo.numOfEvents + 1
    size := packInfo.size + UInt32.ofNat (size e) }
  if maxPackEventsNum ≤ packInfo.numOfEvents ∨ maxPackSize ≤ packInfo.size then
    let heads ← stores (EpochStores.getHeads epoch)
    modifyPacks fun t => t.setPacksNum epoch (packIdx + 1)
    modifyPacks fun t => t.setPackInfo epoch packIdx { packInfo with heads }
  else modifyPacks fun t => t.setPackInfo epoch packIdx packInfo

/-- `Service.packsOnNewEpoch`; the engine is in the new epoch. -/
def packsOnNewEpoch (oldEpoch : ℕ) : EventServiceM κ Unit := do
  let s ← get
  let packIdx := s.packs.getPacksNumOrDefault oldEpoch
  let packInfo := s.packs.getPackInfoOrDefault (eng.getEpoch s.engine) packIdx
  let heads ← stores (EpochStores.getHeads oldEpoch)
  modifyPacks fun t => t.setPackInfo oldEpoch packIdx { packInfo with heads }
  modifyPacks fun t => t.setPacksNum oldEpoch (packIdx + 1)

/-- The call of the engine. -/
def engineProcessEvent (e : Event) : EventServiceM κ (Option ε) := do
  let s ← get
  let (err, engine) ← liftM (eng.processEvent e s.engine)
  modify fun s => { s with engine }
  return err

/-- The end of `processEvent`, if the engine is in another epoch than the event. -/
def onEpochChange (oldEpoch : ℕ) : EventServiceM κ Unit := do
  let newEpoch := eng.getEpoch (← get).engine
  if newEpoch ≠ oldEpoch then
    packsOnNewEpoch eng oldEpoch
    stores (EpochStores.changeEpoch oldEpoch newEpoch)

/-- What `processEvent` does with an event that the engine has accepted. -/
def connect (e : Event) : EventServiceM κ Unit := do
  stores (e.parents.forM fun parent => EpochStores.delHead e.epoch parent)
  stores (EpochStores.addHead e.epoch e.hash)
  packsOnNewEvent eng size e e.epoch
  onEpochChange eng e.epoch

/-- `Service.processEvent` -/
def processEvent (e : Event) : EventServiceM κ (Option (EventErr ε)) := do
  if ← stores (EpochStores.hasEventHeader e.hash) then return some .alreadyConnectedEvent
  else
    stores (EpochStores.setEventHeader e.epoch e.hash)
    match ← engineProcessEvent eng e with
    | some err =>
      stores (EpochStores.delEventHeader e.epoch e.hash)
      return some (.engine err)
    | none =>
      connect eng size e
      return none

end Model

end EventService

/-! ### The tables of the packs -/

def PackInfo.Full (info : PackInfo) : Prop :=
  maxPackEventsNum ≤ info.numOfEvents ∨ maxPackSize ≤ info.size

instance (info : PackInfo) : Decidable info.Full := inferInstanceAs (Decidable (_ ∨ _))

namespace PackTables

variable (t : PackTables) (n r : ℕ) (id : EventID) (size : ℕ) (heads : List EventID)

/-- The info of the last pack of the epoch `n` with one more event, if it is read under `r`. -/
def counted : PackInfo :=
  let packIdx := t.getPacksNumOrDefault n
  let packInfo := t.getPackInfoOrDefault r packIdx
  { packInfo with
    index := packIdx
    numOfEvents := packInfo.numOfEvents + 1
    size := packInfo.size + UInt32.ofNat size }

/-- The writes of `packsOnNewEvent`. -/
def onNewEvent : PackTables :=
  let packIdx := t.getPacksNumOrDefault n
  if (t.counted n r size).Full then
    ((t.addToPack n packIdx id).setPacksNum n (packIdx + 1)).setPackInfo n packIdx
      { t.counted n r size with heads }
  else (t.addToPack n packIdx id).setPackInfo n packIdx (t.counted n r size)

/-- The writes of `packsOnNewEpoch`. -/
def onNewEpoch : PackTables :=
  let packIdx := t.getPacksNumOrDefault n
  (t.setPackInfo n packIdx { t.getPackInfoOrDefault r packIdx with heads }).setPacksNum n
    (packIdx + 1)

variable {t n r id size heads}

lemma update₂_apply {α : Type} (f : ℕ → ℕ → α) (n i : ℕ) (x : α) (m j : ℕ) :
    Function.update f n (Function.update (f n) i x) m j = if m = n ∧ j = i then x else f m j := by
  by_cases hm : m = n
  · subst hm
    simp [Function.update_apply]
  · simp [hm]

section Writes

variable {i : ℕ} {info : PackInfo}

@[simp] lemma packs_setPackInfo : (t.setPackInfo n i info).packs = t.packs := rfl

@[simp] lemma packInfos_setPackInfo (m j : ℕ) : (t.setPackInfo n i info).packInfos m j =
    if m = n ∧ j = i then some info else t.packInfos m j :=
  update₂_apply ..

@[simp] lemma packsNum_setPackInfo (m : ℕ) :
    (t.setPackInfo n i info).getPacksNumOrDefault m = t.getPacksNumOrDefault m := rfl

@[simp] lemma packs_addToPack (m j : ℕ) : (t.addToPack n i id).packs m j =
    if m = n ∧ j = i then insert id (t.packs m j) else t.packs m j := by
  refine (update₂_apply ..).trans ?_
  split_ifs with h
  · rw [h.1, h.2]
  · rfl

@[simp] lemma packInfos_addToPack : (t.addToPack n i id).packInfos = t.packInfos := rfl

@[simp] lemma packsNum_addToPack (m : ℕ) :
    (t.addToPack n i id).getPacksNumOrDefault m = t.getPacksNumOrDefault m := rfl

@[simp] lemma packs_setPacksNum : (t.setPacksNum n i).packs = t.packs := rfl

@[simp] lemma packInfos_setPacksNum : (t.setPacksNum n i).packInfos = t.packInfos := rfl

@[simp] lemma packsNum_setPacksNum (m : ℕ) : (t.setPacksNum n i).getPacksNumOrDefault m =
    if m = n then i else t.getPacksNumOrDefault m := by
  unfold getPacksNumOrDefault setPacksNum
  by_cases hm : m = n
  · simp [hm]
  · simp [hm]

end Writes

@[simp] lemma packs_onNewEvent (m j : ℕ) : (t.onNewEvent n r id size heads).packs m j =
    if m = n ∧ j = t.getPacksNumOrDefault n then insert id (t.packs m j) else t.packs m j := by
  rw [onNewEvent]
  by_cases hfull : (t.counted n r size).Full
  · simp [hfull]
  · simp [hfull]

@[simp] lemma packInfos_onNewEvent (m j : ℕ) :
    (t.onNewEvent n r id size heads).packInfos m j =
      if m = n ∧ j = t.getPacksNumOrDefault n then
        some (if (t.counted n r size).Full then { t.counted n r size with heads }
          else t.counted n r size)
      else t.packInfos m j := by
  rw [onNewEvent]
  by_cases hfull : (t.counted n r size).Full
  · simp [hfull]
  · simp [hfull]

@[simp] lemma packsNum_onNewEvent (m : ℕ) :
    (t.onNewEvent n r id size heads).getPacksNumOrDefault m =
      if m = n ∧ (t.counted n r size).Full then t.getPacksNumOrDefault n + 1
      else t.getPacksNumOrDefault m := by
  rw [onNewEvent]
  by_cases hfull : (t.counted n r size).Full
  · simp [hfull]
  · simp [hfull]

@[simp] lemma packs_onNewEpoch : (t.onNewEpoch n r heads).packs = t.packs := rfl

@[simp] lemma packInfos_onNewEpoch (m j : ℕ) : (t.onNewEpoch n r heads).packInfos m j =
    if m = n ∧ j = t.getPacksNumOrDefault n then
      some { t.getPackInfoOrDefault r (t.getPacksNumOrDefault n) with heads }
    else t.packInfos m j := by
  simp [onNewEpoch]

@[simp] lemma packsNum_onNewEpoch (m : ℕ) : (t.onNewEpoch n r heads).getPacksNumOrDefault m =
    if m = n then t.getPacksNumOrDefault n + 1 else t.getPacksNumOrDefault m := by
  simp [onNewEpoch]

end PackTables

/-! ### The calls -/

namespace EventService

variable {κ ε : Type} {eng : Consensus κ ε} {size : Event → ℕ} {s s' : EventService κ} {n : ℕ}

section

variable {α β : Type} {m : EpochStoresM α} {f : α → EventServiceM κ β}
variable {Q : α → EpochStores → Prop} {R : β → EventService κ → Prop}

lemma stores_bind (h : Returns m s.epochs Q)
    (hf : ∀ a epochs, Q a epochs → Returns (f a) { s with epochs } R) :
    Returns (stores m >>= f) s R := by
  refine Returns.bind (Q := fun a s' => ∃ t, s' = { s with epochs := t } ∧ Q a t)
    (.zoom (h.mono fun a t hq => ⟨t, rfl, hq⟩)) ?_
  rintro a _ ⟨t, rfl, hq⟩
  exact hf a t hq

lemma stores_yields_bind {P : Prop} (h : Yields P m s.epochs Q)
    (hf : ∀ a epochs, Q a epochs → Yields P (f a) { s with epochs } R) :
    Yields P (stores m >>= f) s R := by
  refine Yields.bind (Q := fun a s' => ∃ t, s' = { s with epochs := t } ∧ Q a t)
    (.zoom (h.mono fun a t hq => ⟨t, rfl, hq⟩)) ?_
  rintro a _ ⟨t, rfl, hq⟩
  exact hf a t hq

end

/-- Only the stores may change, and not what they hold. -/
structure Same (s s' : EventService κ) : Prop where
  engine_eq : s'.engine = s.engine
  packs_eq : s'.packs = s.packs
  good : s'.epochs.Good
  tablesOf_eq : ∀ m < 2 ^ 63, s'.epochs.tablesOf m = s.epochs.tablesOf m

variable {es : EpochTables}

section

variable (hgood : s.epochs.Good) (hn : n < 2 ^ 63) (hopen : s.epochs.tablesOf n = some es)
include hgood hn hopen

lemma getHeads_open :
    Returns (stores (EpochStores.getHeads n)) s fun heads s' =>
      heads = es.heads.sort ∧ Same s s' := by
  refine .zoom (((hgood.getHeads hn).toReturns (EpochStores.fits_of_open hopen)).mono ?_)
  rintro heads epochs ⟨⟨r, hopens⟩, rfl⟩
  refine ⟨by rw [hopen, Option.getD_some], rfl, rfl, hopens.good, fun m hm => ?_⟩
  simp only
  rw [hopens.tablesOf_eq hm]
  split_ifs with h
  · rw [h.1, hopen, Option.getD_some]
  · rfl

lemma packsOnNewEvent_open (e : Event) :
    Returns (packsOnNewEvent eng size e n) s fun _ s' =>
      s'.engine = s.engine ∧ s'.epochs.Good ∧
      (∀ m < 2 ^ 63, s'.epochs.tablesOf m = s.epochs.tablesOf m) ∧
      s'.packs = s.packs.onNewEvent n (eng.getEpoch s.engine) e.hash (size e) es.heads.sort := by
  refine .get_bind (.modify_bind ?_)
  change Returns (if (s.packs.counted n (eng.getEpoch s.engine) (size e)).Full then _ else _) _ _
  by_cases hfull : (s.packs.counted n (eng.getEpoch s.engine) (size e)).Full
  · rw [if_pos hfull]
    refine Returns.bind (getHeads_open (by exact hgood) hn (by exact hopen)) ?_
    rintro _ s₂ ⟨rfl, hsame⟩
    refine .modify_bind (.modify ⟨hsame.engine_eq, hsame.good, hsame.tablesOf_eq, ?_⟩)
    simp only [hsame.packs_eq, PackTables.onNewEvent, if_pos hfull]
    rfl
  · rw [if_neg hfull]
    refine .modify ⟨rfl, hgood, fun _ _ => rfl, ?_⟩
    simp only [PackTables.onNewEvent, if_neg hfull]
    rfl

lemma packsOnNewEpoch_open :
    Returns (packsOnNewEpoch eng n) s fun _ s' =>
      s'.engine = s.engine ∧ s'.epochs.Good ∧
      (∀ m < 2 ^ 63, s'.epochs.tablesOf m = s.epochs.tablesOf m) ∧
      s'.packs = s.packs.onNewEpoch n (eng.getEpoch s.engine) es.heads.sort := by
  refine .get_bind ((getHeads_open hgood hn hopen).bind ?_)
  rintro _ s₂ ⟨rfl, hsame⟩
  refine .modify_bind (.modify ⟨hsame.engine_eq, hsame.good, hsame.tablesOf_eq, ?_⟩)
  simp only [hsame.packs_eq, PackTables.onNewEpoch]

end

/-- What is stored for the epoch of an accepted event. -/
def withEvent (es : EpochTables) (e : Event) : EpochTables where
  headers := insert e.hash es.headers
  heads := insert e.hash (es.heads \ e.parents.toFinset)

/-- The effect of accepting the event `e` of the epoch `n`, when `es` was stored for it and the
engine is in the epoch `n'` afterwards. -/
structure Connects (size : Event → ℕ) (e : Event) (n n' : ℕ) (es : EpochTables)
    (s s' : EventService κ) : Prop where
  good : s'.epochs.Good
  stays : n' = n → s'.packs = s.packs.onNewEvent n n e.hash (size e) (withEvent es e).heads.sort ∧
    ∀ m < 2 ^ 63, s'.epochs.tablesOf m =
      if m = n then some (withEvent es e) else s.epochs.tablesOf m
  seals : n' = n + 1 → s'.packs = (s.packs.onNewEvent n (n + 1) e.hash (size e)
      (withEvent es e).heads.sort).onNewEpoch n (n + 1) (withEvent es e).heads.sort ∧
    ∀ m < 2 ^ 63, s'.epochs.tablesOf m = if m ≤ n then none
      else if m = n + 1 then some ((s.epochs.tablesOf m).getD .empty) else s.epochs.tablesOf m

lemma Connects.congr {e : Event} {n n' : ℕ} {s₁ : EventService κ}
    (h : Connects size e n n' es s₁ s') (hpacks : s₁.packs = s.packs)
    (htables : ∀ m < 2 ^ 63, m ≠ n → s₁.epochs.tablesOf m = s.epochs.tablesOf m) :
    Connects size e n n' es s s' := by
  refine ⟨h.good, fun hn => ?_, fun hn => ?_⟩
  · obtain ⟨hpacks', htables'⟩ := h.stays hn
    refine ⟨hpacks ▸ hpacks', fun m hm => ?_⟩
    rw [htables' m hm]
    split_ifs with hmn
    · rfl
    · exact htables m hm hmn
  · obtain ⟨hpacks', htables'⟩ := h.seals hn
    refine ⟨hpacks ▸ hpacks', fun m hm => ?_⟩
    rw [htables' m hm]
    by_cases hle : m ≤ n
    · rw [if_pos hle, if_pos hle]
    · rw [if_neg hle, if_neg hle, htables m hm (by omega)]

lemma connect_open {e : Event} (hgood : s.epochs.Good) (hn : e.epoch + 1 < 2 ^ 63)
    (hopen : s.epochs.tablesOf e.epoch = some { es with headers := insert e.hash es.headers })
    (hnext : eng.getEpoch s.engine = e.epoch ∨ eng.getEpoch s.engine = e.epoch + 1) :
    Returns (connect eng size e) s fun _ s' => s'.engine = s.engine ∧
      Connects size e e.epoch (eng.getEpoch s.engine) es s s' := by
  have hn' : e.epoch < 2 ^ 63 := by omega
  refine stores_bind (hgood.delHeads_open hn' hopen e.parents) ?_
  rintro _ t₁ ⟨hgood₁, htables₁⟩
  refine stores_bind (hgood₁.write_open hn' (by rw [htables₁ _ hn', if_pos rfl]) _) ?_
  rintro _ t₂ ⟨hgood₂, htables₂⟩
  have htables : ∀ m < 2 ^ 63, t₂.tablesOf m =
      if m = e.epoch then some (withEvent es e) else s.epochs.tablesOf m := by
    intro m hm
    rw [htables₂ m hm, htables₁ m hm]
    split_ifs
    · rfl
    · rfl
  have hopen₂ : t₂.tablesOf e.epoch = some (withEvent es e) := by rw [htables _ hn', if_pos rfl]
  refine Returns.bind (packsOnNewEvent_open (by exact hgood₂) hn' (by exact hopen₂) e) ?_
  rintro _ s₃ ⟨hengine₃, hgood₃, htables₃, hpacks₃⟩
  simp only at hengine₃ htables₃ hpacks₃
  refine .get_bind ?_
  change Returns (if eng.getEpoch s₃.engine ≠ e.epoch then _ else _) _ _
  rcases hnext with hstay | hseal
  · rw [if_neg (by rw [hengine₃, hstay]; simp)]
    refine .pure ⟨hengine₃, hgood₃, fun _ => ⟨?_, ?_⟩, fun h => absurd h (by omega)⟩
    · rw [hpacks₃, hstay]
    · intro m hm
      rw [htables₃ m hm, htables m hm]
  · rw [if_pos (by rw [hengine₃, hseal]; simp)]
    have hopen₃ : s₃.epochs.tablesOf e.epoch = some (withEvent es e) := by
      rw [htables₃ _ hn', hopen₂]
    refine (packsOnNewEpoch_open hgood₃ hn' hopen₃).bind ?_
    rintro _ s₄ ⟨hengine₄, hgood₄, htables₄, hpacks₄⟩
    rw [hengine₃, hseal] at hpacks₄ ⊢
    have hopen₄ : s₄.epochs.tablesOf e.epoch = some (withEvent es e) := by
      rw [htables₄ _ hn', hopen₃]
    refine .zoom ((hgood₄.changeEpoch hn hopen₄).mono ?_)
    rintro _ t₅ ⟨hgood₅, htables₅⟩
    refine ⟨hengine₄.trans hengine₃, hgood₅, fun h => absurd h (by omega), fun _ => ⟨?_, ?_⟩⟩
    · rw [hpacks₄, hpacks₃, hseal]
    · intro m hm
      simp only
      rw [htables₅ m hm, htables₄ m hm, htables₃ m hm, htables m hm]
      split_ifs
      · rfl
      · omega
      · rfl
      · omega
      · rfl

/-- The epoch can be asked for and is not yet gone. -/
def Alive (s : EventService κ) (n : ℕ) : Prop := ¬ UInt64.ofNat n < s.epochs.dbs.seq.min

/-- What is stored for an epoch. -/
def tables (s : EventService κ) (n : ℕ) : EpochTables := (s.epochs.tablesOf n).getD .empty

/-- The effect of a call that fails: at most an empty store is opened. -/
structure Rejects (e : Event) (s s' : EventService κ) : Prop where
  packs_eq : s'.packs = s.packs
  good : s'.epochs.Good
  others : ∀ m < 2 ^ 63, m ≠ e.epoch → s'.epochs.tablesOf m = s.epochs.tablesOf m
  own : ¬ s.Alive e.epoch ∧ s'.epochs.tablesOf e.epoch = s.epochs.tablesOf e.epoch ∨
    s.Alive e.epoch ∧ s'.epochs.tablesOf e.epoch = some (s.tables e.epoch)

lemma engineProcessEvent_yields (e : Event) :
    Yields (∃ r, eng.processEvent e s.engine = .ok r) (engineProcessEvent eng e) s fun err s' =>
      ∃ engine, eng.processEvent e s.engine = .ok (err, engine) ∧ s' = { s with engine } := by
  refine .get_bind (Yields.bind (.lift (Q := fun r s' =>
    eng.processEvent e s.engine = .ok r ∧ s' = s) id fun r hr => ⟨hr, rfl⟩) ?_)
  rintro ⟨err, engine⟩ _ ⟨hr, rfl⟩
  exact .modify_bind (.pure ⟨engine, hr, rfl⟩)

/-- The outcome of `processEvent`. -/
def Processed (eng : Consensus κ ε) (size : Event → ℕ) (e : Event) (s : EventService κ) :
    Option (EventErr ε) → EventService κ → Prop
  | some _, s' => Rejects e s s' ∧ eng.getEpoch s'.engine = eng.getEpoch s.engine ∧
      (e.hash ∈ (s.tables e.epoch).headers ∨
        ∃ err, eng.processEvent e s.engine = .ok (some err, s'.engine))
  | none, s' => e.hash ∉ (s.tables e.epoch).headers ∧
      eng.processEvent e s.engine = .ok (none, s'.engine) ∧
      Connects size e e.epoch (eng.getEpoch s'.engine) (s.tables e.epoch) s s'

/-- What `processEvent` does, and that it returns if the engine does and the epoch of the event can
be asked for. -/
lemma processEvent_yields (heng : eng.Sound) (hgood : s.epochs.Good) {e : Event}
    (he : e.epoch < 2 ^ 32) (halive : e.epoch = eng.getEpoch s.engine → s.Alive e.epoch) :
    Yields (s.epochs.Fits e.epoch ∧ ∃ r, eng.processEvent e s.engine = .ok r)
      (processEvent eng size e) s (Processed eng size e s) := by
  have hn : e.epoch < 2 ^ 63 := by omega
  have hhas := hgood.hasEventHeader e.hash
  rw [Event.epoch_hash he] at hhas
  change Yields _ _ _ (fun has s' => _ ∧ has = decide (e.hash ∈ (s.tables e.epoch).headers)) at hhas
  refine stores_yields_bind (hhas.weaken And.left) ?_
  rintro has t₁ ⟨⟨r, hopens⟩, rfl⟩
  have hothers : ∀ m < 2 ^ 63, m ≠ e.epoch → t₁.tablesOf m = s.epochs.tablesOf m := by
    intro m hm hne
    rw [hopens.tablesOf_eq hm, if_neg (by simp [hne])]
  rcases hopens.result with ⟨hr, rfl, hnone⟩ | ⟨k, -, rfl, -⟩
  · -- the epoch is gone, and nothing is written
    have hgone := hopens.gone.mp hr
    have hrejects : ∀ engine, Rejects e s { s with engine } := fun engine =>
      ⟨rfl, hgood, fun _ _ _ => rfl, .inl ⟨not_not.mpr hgone, rfl⟩⟩
    rw [if_neg (by simp [tables, hnone, EpochTables.empty])]
    refine stores_yields_bind (hgood.write_gone hn hgone _).yields ?_
    rintro _ _ rfl
    refine Yields.bind ((engineProcessEvent_yields e).weaken And.right) ?_
    rintro err _ ⟨engine, hrun, rfl⟩
    cases err with
    | some err =>
      refine stores_yields_bind (hgood.write_gone hn hgone _).yields ?_
      rintro _ _ rfl
      exact .pure ⟨hrejects engine, heng.rejected hrun, .inr ⟨err, hrun⟩⟩
    | none => exact absurd hgone (halive (heng.accepted hrun).1)
  · have halive : s.Alive e.epoch := fun hlt => by cases hopens.gone.mpr hlt
    have hopen : t₁.tablesOf e.epoch = some (s.tables e.epoch) := by
      rw [hopens.tablesOf_eq hn, if_pos ⟨rfl, rfl⟩, tables]
    by_cases hmem : e.hash ∈ (s.tables e.epoch).headers
    · rw [if_pos (decide_eq_true hmem)]
      exact .pure ⟨⟨rfl, hopens.good, hothers, .inr ⟨halive, hopen⟩⟩, rfl, .inl hmem⟩
    rw [if_neg (by simpa using hmem)]
    refine stores_yields_bind (hopens.good.write_open hn hopen _).yields ?_
    rintro _ t₂ ⟨hgood₂, htables₂⟩
    have hopen₂ := htables₂ _ hn
    rw [if_pos rfl] at hopen₂
    refine Yields.bind ((engineProcessEvent_yields e).weaken And.right) ?_
    rintro err _ ⟨engine, hrun, rfl⟩
    cases err with
    | some err =>
      refine stores_yields_bind (hgood₂.write_open hn hopen₂ _).yields ?_
      rintro _ t₃ ⟨hgood₃, htables₃⟩
      refine .pure ⟨⟨rfl, hgood₃, fun m hm hne => ?_, .inr ⟨halive, ?_⟩⟩, heng.rejected hrun,
        .inr ⟨err, hrun⟩⟩
      · simp only
        rw [htables₃ m hm, if_neg hne, htables₂ m hm, if_neg hne, hothers m hm hne]
      · simp only
        rw [htables₃ _ hn, if_pos rfl]
        simp [Finset.erase_insert hmem]
    | none =>
      obtain ⟨hepoch, hnext⟩ := heng.accepted hrun
      rw [← hepoch] at hnext
      refine Yields.bind (connect_open (by exact hgood₂) (by omega) (by exact hopen₂)
        (by exact hnext)).yields ?_
      rintro _ s' ⟨hengine, hconnects⟩
      simp only at hengine hconnects
      rw [← hengine] at hrun hconnects
      refine .pure ⟨hmem, hrun, hconnects.congr rfl fun m hm hne => ?_⟩
      simp only
      rw [htables₂ m hm, if_neg hne, hothers m hm hne]

end EventService

/-! ### Accepted events -/

/-- The accepted events of an epoch. -/
def headersOf (log : List Event) (n : ℕ) : Finset EventID :=
  ((log.filter (·.epoch = n)).map Event.hash).toFinset

/-- The accepted events of an epoch without an accepted child. -/
def headsOf (log : List Event) (n : ℕ) : Finset EventID :=
  (headersOf log n).filter fun id => ∀ x ∈ log, id ∉ x.parents

/-- `a` is `b` or an ancestor of it. -/
def Below (log : List Event) : EventID → EventID → Prop :=
  Relation.ReflTransGen fun a b => ∃ x ∈ log, x.hash = b ∧ a ∈ x.parents

/-- Every accepted event of the epoch is one of the heads or an ancestor of one. -/
def Covered (log : List Event) (n : ℕ) (heads : List EventID) : Prop :=
  ∀ x ∈ log, x.epoch = n → ∃ h ∈ heads, Below log x.hash h

section

variable {log : List Event} {n : ℕ} {e : Event}

@[simp] lemma mem_headersOf {id : EventID} :
    id ∈ headersOf log n ↔ ∃ x ∈ log, x.epoch = n ∧ x.hash = id := by
  simp [headersOf, and_assoc]

@[simp] lemma mem_headsOf {id : EventID} :
    id ∈ headsOf log n ↔ (∃ x ∈ log, x.epoch = n ∧ x.hash = id) ∧ ∀ x ∈ log, id ∉ x.parents := by
  simp [headsOf]

lemma Below.mono {a b : EventID} (h : Below log a b) (x : Event) : Below (log ++ [x]) a b :=
  Relation.ReflTransGen.mono
    (fun _ _ ⟨y, hy, hparent⟩ => ⟨y, List.mem_append_left _ hy, hparent⟩) a b h

/-- The events before the parents-first event `e`: each parent is among them, and `e` is not. -/
structure Fresh (log : List Event) (e : Event) : Prop where
  closed : ∀ x ∈ log, ∀ p ∈ x.parents, ∃ y ∈ log, y.hash = p
  parents_first : ∀ p ∈ e.parents, ∃ y ∈ log, y.hash = p
  new : ∀ x ∈ log, x.hash ≠ e.hash

lemma Fresh.not_mem_parents (h : Fresh log e) : ∀ x ∈ log ++ [e], e.hash ∉ x.parents := by
  intro x hx hparent
  have hy : ∃ y ∈ log, y.hash = e.hash := by
    rcases List.mem_append.mp hx with hx | hx
    · exact h.closed x hx _ hparent
    · rw [List.mem_singleton.mp hx] at hparent
      exact h.parents_first _ hparent
  obtain ⟨y, hy, heq⟩ := hy
  exact h.new y hy heq

lemma Fresh.closed_append (h : Fresh log e) :
    ∀ x ∈ log ++ [e], ∀ p ∈ x.parents, ∃ y ∈ log ++ [e], y.hash = p := by
  intro x hx p hp
  have hy : ∃ y ∈ log, y.hash = p := by
    rcases List.mem_append.mp hx with hx | hx
    · exact h.closed x hx p hp
    · rw [List.mem_singleton.mp hx] at hp
      exact h.parents_first p hp
  obtain ⟨y, hy, heq⟩ := hy
  exact ⟨y, List.mem_append_left _ hy, heq⟩

lemma headersOf_append (he : e.epoch = n) :
    headersOf (log ++ [e]) n = insert e.hash (headersOf log n) := by
  ext id
  simp only [Finset.mem_insert, mem_headersOf, List.mem_append, List.mem_singleton]
  constructor
  · rintro ⟨x, hx | rfl, hxe, rfl⟩
    · exact .inr ⟨x, hx, hxe, rfl⟩
    · exact .inl rfl
  · rintro (rfl | ⟨x, hx, hxe, rfl⟩)
    · exact ⟨e, .inr rfl, he, rfl⟩
    · exact ⟨x, .inl hx, hxe, rfl⟩

lemma Fresh.headsOf_append (h : Fresh log e) (he : e.epoch = n) :
    headsOf (log ++ [e]) n = insert e.hash (headsOf log n \ e.parents.toFinset) := by
  have hnot := h.not_mem_parents
  ext id
  rw [headsOf, Finset.mem_filter, headersOf_append he, Finset.mem_insert, Finset.mem_insert,
    Finset.mem_sdiff, headsOf, Finset.mem_filter, List.mem_toFinset]
  by_cases hid : id = e.hash
  · subst hid
    simpa using hnot
  · simp [hid, or_imp, forall_and, and_assoc]

lemma Fresh.withEvent_eq (h : Fresh log e) (he : e.epoch = n) :
    EventService.withEvent ⟨headersOf log n, headsOf log n⟩ e =
      ⟨headersOf (log ++ [e]) n, headsOf (log ++ [e]) n⟩ := by
  rw [EventService.withEvent, headersOf_append he, h.headsOf_append he]

/-- Each accepted event stays below a head. -/
lemma Fresh.covered (h : Fresh log e) (he : e.epoch = n)
    (hcovered : Covered log n (headsOf log n).sort) :
    Covered (log ++ [e]) n (headsOf (log ++ [e]) n).sort := by
  have hhead : e.hash ∈ (headsOf (log ++ [e]) n).sort := by
    rw [Finset.mem_sort, h.headsOf_append he]
    exact Finset.mem_insert_self _ _
  intro x hx hxn
  rcases List.mem_append.mp hx with hx | hx
  · obtain ⟨a, ha, hbelow⟩ := hcovered x hx hxn
    by_cases hparent : a ∈ e.parents
    · -- its head is not one any more, but a parent of the new one
      exact ⟨e.hash, hhead, (hbelow.mono e).tail ⟨e, by simp, rfl, hparent⟩⟩
    · refine ⟨a, ?_, hbelow.mono e⟩
      rw [Finset.mem_sort] at ha ⊢
      rw [h.headsOf_append he]
      exact Finset.mem_insert_of_mem (by simp [ha, hparent])
  · rw [List.mem_singleton.mp hx]
    exact ⟨e.hash, hhead, .refl⟩

end

namespace PackTables

variable {log : List Event} {t : PackTables} {n r : ℕ} {e : Event} {size : ℕ}
variable {heads : List EventID}

/-- The packs hold the accepted events, each once, and what is in the pinned packs is below their
heads. -/
structure Packed (log : List Event) (t : PackTables) : Prop where
  mem : ∀ n i id, id ∈ t.packs n i → 1 ≤ i ∧ i ≤ t.getPacksNumOrDefault n ∧
    ∃ x ∈ log, x.epoch = n ∧ x.hash = id
  all : ∀ x ∈ log, ∃ i, x.hash ∈ t.packs x.epoch i
  unique : ∀ n i j id, id ∈ t.packs n i → id ∈ t.packs n j → i = j
  num_pos : ∀ n, 1 ≤ t.getPacksNumOrDefault n
  pinned : ∀ n i, 1 ≤ i → i < t.getPacksNumOrDefault n → ∃ info, t.packInfos n i = some info ∧
    ∀ j ≤ i, ∀ id ∈ t.packs n j, ∃ h ∈ info.heads, Below log id h

lemma packed_empty : Packed [] empty where
  mem _ _ _ h := absurd h (Finset.notMem_empty _)
  all _ hx := absurd hx List.not_mem_nil
  unique _ _ _ _ h := absurd h (Finset.notMem_empty _)
  num_pos _ := le_rfl
  pinned _ _ hpos hlt := absurd hlt (Nat.not_lt.mpr hpos)

lemma Packed.not_mem (h : Packed log t) (hfresh : Fresh log e) (m j : ℕ) : e.hash ∉ t.packs m j := by
  intro hmem
  obtain ⟨-, -, x, hx, -, heq⟩ := h.mem m j _ hmem
  exact hfresh.new x hx heq

/-- A new event goes to the last pack, whose heads cover all before it. -/
lemma Packed.onNewEvent (h : Packed log t) (hfresh : Fresh log e) (he : e.epoch = n)
    (hcovered : Covered (log ++ [e]) n heads) :
    Packed (log ++ [e]) (t.onNewEvent n r e.hash size heads) := by
  have hmem : ∀ m i id, id ∈ (t.onNewEvent n r e.hash size heads).packs m i →
      1 ≤ i ∧ i ≤ t.getPacksNumOrDefault m ∧ ∃ x ∈ log ++ [e], x.epoch = m ∧ x.hash = id := by
    intro m i id hid
    rw [packs_onNewEvent] at hid
    have hold : id ∈ t.packs m i → 1 ≤ i ∧ i ≤ t.getPacksNumOrDefault m ∧
        ∃ x ∈ log ++ [e], x.epoch = m ∧ x.hash = id := by
      intro hid
      obtain ⟨hpos, hle, x, hx, hxe⟩ := h.mem m i id hid
      exact ⟨hpos, hle, x, List.mem_append_left _ hx, hxe⟩
    split_ifs at hid with hlast
    · rcases Finset.mem_insert.mp hid with rfl | hid
      · rw [hlast.1, hlast.2]
        exact ⟨h.num_pos n, le_rfl, e, by simp, he, rfl⟩
      · exact hold hid
    · exact hold hid
  constructor
  · intro m i id hid
    obtain ⟨hpos, hle, hx⟩ := hmem m i id hid
    refine ⟨hpos, hle.trans ?_, hx⟩
    rw [packsNum_onNewEvent]
    split_ifs with hfull
    · rw [hfull.1]
      exact Nat.le_succ _
    · exact le_rfl
  · intro x hx
    rcases List.mem_append.mp hx with hx | hx
    · obtain ⟨i, hi⟩ := h.all x hx
      refine ⟨i, ?_⟩
      rw [packs_onNewEvent]
      split_ifs
      · exact Finset.mem_insert_of_mem hi
      · exact hi
    · rw [List.mem_singleton.mp hx]
      refine ⟨t.getPacksNumOrDefault n, ?_⟩
      rw [packs_onNewEvent, if_pos ⟨he, rfl⟩]
      exact Finset.mem_insert_self _ _
  · intro m i j id hi hj
    by_cases hid : id = e.hash
    · subst hid
      have hlast : ∀ k, e.hash ∈ (t.onNewEvent n r e.hash size heads).packs m k →
          k = t.getPacksNumOrDefault n := by
        intro k hk
        rw [packs_onNewEvent] at hk
        split_ifs at hk with hk'
        · exact hk'.2
        · exact absurd hk (h.not_mem hfresh m k)
      rw [hlast i hi, hlast j hj]
    · have hold : ∀ k, id ∈ (t.onNewEvent n r e.hash size heads).packs m k → id ∈ t.packs m k := by
        intro k hk
        rw [packs_onNewEvent] at hk
        split_ifs at hk
        · exact (Finset.mem_insert.mp hk).resolve_left hid
        · exact hk
      exact h.unique m i j id (hold i hi) (hold j hj)
  · intro m
    rw [packsNum_onNewEvent]
    split_ifs
    · exact Nat.succ_le_succ (Nat.zero_le _)
    · exact h.num_pos m
  · intro m i hpos hlt
    rw [packsNum_onNewEvent] at hlt
    by_cases hlast : m = n ∧ i = t.getPacksNumOrDefault n
    · -- the pack that is pinned now
      obtain ⟨rfl, rfl⟩ := hlast
      have hfull : (t.counted m r size).Full := by
        by_contra hfull
        rw [if_neg (by simp [hfull])] at hlt
        exact lt_irrefl _ hlt
      refine ⟨{ t.counted m r size with heads }, ?_, fun j _ id hid => ?_⟩
      · rw [packInfos_onNewEvent, if_pos ⟨rfl, rfl⟩, if_pos hfull]
      · obtain ⟨-, -, x, hx, hxe, rfl⟩ := hmem m j id hid
        exact hcovered x hx hxe
    · have hlt' : i < t.getPacksNumOrDefault m := by
        split_ifs at hlt with hfull
        · obtain ⟨rfl, -⟩ := hfull
          exact lt_of_le_of_ne (Nat.lt_succ_iff.mp hlt) fun heq => hlast ⟨rfl, heq⟩
        · exact hlt
      obtain ⟨info, hinfo, hbelow⟩ := h.pinned m i hpos hlt'
      refine ⟨info, by rw [packInfos_onNewEvent, if_neg hlast, hinfo], fun j hj id hid => ?_⟩
      have hid' : id ∈ t.packs m j := by
        rw [packs_onNewEvent, if_neg] at hid
        · exact hid
        · rintro ⟨rfl, rfl⟩
          exact absurd hlt' (Nat.not_lt.mpr hj)
      obtain ⟨a, ha, hb⟩ := hbelow j hj id hid'
      exact ⟨a, ha, hb.mono e⟩

/-- The last pack of an epoch is closed with its heads. -/
lemma Packed.onNewEpoch (h : Packed log t) (hcovered : Covered log n heads) :
    Packed log (t.onNewEpoch n r heads) := by
  constructor
  · intro m i id hid
    obtain ⟨hpos, hle, hx⟩ := h.mem m i id hid
    refine ⟨hpos, hle.trans ?_, hx⟩
    rw [packsNum_onNewEpoch]
    split_ifs with hmn
    · rw [hmn]
      exact Nat.le_succ _
    · exact le_rfl
  · exact h.all
  · exact h.unique
  · intro m
    rw [packsNum_onNewEpoch]
    split_ifs
    · exact Nat.succ_le_succ (Nat.zero_le _)
    · exact h.num_pos m
  · intro m i hpos hlt
    rw [packsNum_onNewEpoch] at hlt
    by_cases hlast : m = n ∧ i = t.getPacksNumOrDefault n
    · refine ⟨_, by rw [packInfos_onNewEpoch, if_pos hlast], fun j _ id hid => ?_⟩
      obtain ⟨-, -, x, hx, hxe, rfl⟩ := h.mem m j id hid
      exact hcovered x hx (hxe.trans hlast.1)
    · have hlt' : i < t.getPacksNumOrDefault m := by
        split_ifs at hlt with hmn
        · subst hmn
          exact lt_of_le_of_ne (Nat.lt_succ_iff.mp hlt) fun heq => hlast ⟨rfl, heq⟩
        · exact hlt
      obtain ⟨info, hinfo, hbelow⟩ := h.pinned m i hpos hlt'
      exact ⟨info, by rw [packInfos_onNewEpoch, if_neg hlast, hinfo], hbelow⟩

end PackTables

/-! ### Runs -/

namespace EventService

variable {κ ε : Type} {eng : Consensus κ ε} {size : Event → ℕ}

/-- A call of `processEvent`. -/
structure Step (κ ε : Type) where
  before : EventService κ
  event : Event
  err : Option (EventErr ε)
  after : EventService κ

/-- The accepted events in order. -/
def accepted (steps : List (Step κ ε)) : List Event :=
  (steps.filter (·.err.isNone)).map (·.event)

def new (engine : κ) : EventService κ := ⟨engine, .new, .empty⟩

/-- An event comes after its parents. Its epoch was checked by the caller, which matters as long as
no store is open: the first one that is opened is the lowest one for ever. -/
structure Given (eng : Consensus κ ε) (log : List Event) (s : EventService κ) (e : Event) :
    Prop where
  parents_first : ∀ p ∈ e.parents, ∃ x ∈ log, x.hash = p
  epoch_lt : e.epoch < 2 ^ 32
  checked : (∀ n, s.epochs.tablesOf n = none) → e.epoch = eng.getEpoch s.engine

/-- Parents-first runs of `processEvent` from the start of a node. -/
inductive Run (eng : Consensus κ ε) (size : Event → ℕ) (engine : κ) :
    List (Step κ ε) → EventService κ → Prop
  | start : Run eng size engine [] (new engine)
  | call {steps : List (Step κ ε)} {s s' : EventService κ} {e : Event}
      {err : Option (EventErr ε)} (h : Run eng size engine steps s)
      (hgiven : Given eng (accepted steps) s e)
      (hrun : (processEvent eng size e).run s = .ok (err, s')) :
      Run eng size engine (steps ++ [⟨s, e, err, s'⟩]) s'

/-- The stores and the packs between two calls: the store of the current epoch has the accepted
events and the heads, the lower ones are gone, and the later ones are empty. -/
structure Kept (eng : Consensus κ ε) (log : List Event) (s : EventService κ) : Prop where
  good : s.epochs.Good
  epoch_le : eng.getEpoch s.engine ≤ 2 ^ 32
  opened : (∃ es, s.epochs.tablesOf (eng.getEpoch s.engine) = some es) ∨ s.epochs = .new
  current : s.tables (eng.getEpoch s.engine) =
    ⟨headersOf log (eng.getEpoch s.engine), headsOf log (eng.getEpoch s.engine)⟩
  later : ∀ m, eng.getEpoch s.engine < m → m < 2 ^ 63 → s.tables m = .empty
  earlier : ∀ m < eng.getEpoch s.engine, s.epochs.tablesOf m = none
  epochs : ∀ x ∈ log, x.epoch ≤ eng.getEpoch s.engine ∧ x.epoch < 2 ^ 32
  closed : ∀ x ∈ log, ∀ p ∈ x.parents, ∃ y ∈ log, y.hash = p
  covered : Covered log (eng.getEpoch s.engine) (headsOf log (eng.getEpoch s.engine)).sort
  packed : s.packs.Packed log

section

variable {log : List Event} {s s' : EventService κ} {e : Event}

lemma kept_new {engine : κ} (hepoch : eng.getEpoch engine < 2 ^ 32) : Kept eng [] (new engine) where
  good := EpochStores.good_new
  epoch_le := hepoch.le
  opened := .inr rfl
  current := by simp [new, tables, EpochStores.tablesOf_new, EpochTables.empty, headsOf, headersOf]
  later m _ _ := by simp [new, tables, EpochStores.tablesOf_new]
  earlier m _ := EpochStores.tablesOf_new m
  epochs _ hx := absurd hx List.not_mem_nil
  closed _ hx := absurd hx List.not_mem_nil
  covered _ hx := absurd hx List.not_mem_nil
  packed := PackTables.packed_empty

variable (h : Kept eng log s)
include h

lemma Kept.alive : s.Alive (eng.getEpoch s.engine) := by
  rcases h.opened with ⟨es, hopen⟩ | hnew
  · obtain ⟨p, hp⟩ := EpochStores.exists_live hopen
    exact UInt64.not_lt.mpr (EpochStores.live_range hp).1
  · rw [Alive, hnew]
    exact UInt64.not_lt.mpr UInt64.zero_le

variable (hgiven : Given eng log s e)
include hgiven

lemma Kept.not_alive (hlt : e.epoch < eng.getEpoch s.engine) :
    UInt64.ofNat e.epoch < s.epochs.dbs.seq.min := by
  have hle := h.epoch_le
  rcases h.opened with ⟨es, hopen⟩ | hnew
  · exact h.good.lt_min (by omega) hopen hlt (h.earlier _ hlt)
  · have heq := hgiven.checked fun n => by rw [hnew, EpochStores.tablesOf_new]
    omega

lemma Kept.fits (hle : e.epoch ≤ eng.getEpoch s.engine) : s.epochs.Fits e.epoch := by
  rcases Nat.lt_or_eq_of_le hle with hlt | heq
  · exact .inl (h.not_alive hgiven hlt)
  · rcases h.opened with ⟨es, hopen⟩ | hnew
    · exact EpochStores.fits_of_open (heq ▸ hopen)
    · have hlt := hgiven.epoch_lt
      rw [hnew]
      exact EpochStores.fits_new (by omega)

lemma Kept.fresh (hepoch : e.epoch = eng.getEpoch s.engine)
    (hnew : e.hash ∉ (s.tables e.epoch).headers) :
    Fresh log e := by
  refine ⟨h.closed, hgiven.parents_first, fun x hx heq => hnew ?_⟩
  rw [hepoch, h.current, mem_headersOf]
  refine ⟨x, hx, ?_, heq⟩
  rw [← hepoch, ← Event.epoch_hash (h.epochs x hx).2, heq, Event.epoch_hash hgiven.epoch_lt]

/-- A rejected event leaves the stores as they were. -/
lemma Kept.reject (hrejects : Rejects e s s')
    (hepoch : eng.getEpoch s'.engine = eng.getEpoch s.engine) : Kept eng log s' := by
  have hle := h.epoch_le
  have htables : ∀ m < 2 ^ 63, s'.tables m = s.tables m := by
    intro m hm
    by_cases hme : m = e.epoch
    · subst hme
      rcases hrejects.own with ⟨-, heq⟩ | ⟨-, heq⟩
      · rw [tables, heq, tables]
      · rw [tables, heq, Option.getD_some]
    · rw [tables, hrejects.others m hm hme, tables]
  constructor
  · exact hrejects.good
  · rwa [hepoch]
  · rw [hepoch]
    by_cases hcur : eng.getEpoch s.engine = e.epoch
    · rcases hrejects.own with ⟨hgone, -⟩ | ⟨-, hopen⟩
      · exact absurd (hcur ▸ h.alive) hgone
      · exact .inl ⟨_, hcur ▸ hopen⟩
    · rcases h.opened with ⟨es, hopen⟩ | hnew
      · exact .inl ⟨es, by rw [hrejects.others _ (by omega) hcur, hopen]⟩
      · exact absurd (hgiven.checked fun n => by rw [hnew, EpochStores.tablesOf_new]).symm hcur
  · rw [hepoch, htables _ (by omega), h.current]
  · intro m hlt hm
    rw [hepoch] at hlt
    rw [htables m hm, h.later m hlt hm]
  · intro m hlt
    rw [hepoch] at hlt
    by_cases hme : m = e.epoch
    · subst hme
      rcases hrejects.own with ⟨-, heq⟩ | ⟨halive, -⟩
      · rw [heq, h.earlier _ hlt]
      · exact absurd (h.not_alive hgiven hlt) halive
    · rw [hrejects.others m (by omega) hme, h.earlier m hlt]
  · rw [hepoch]
    exact h.epochs
  · exact h.closed
  · rw [hepoch]
    exact h.covered
  · rw [hrejects.packs_eq]
    exact h.packed

/-- An accepted event is added to the headers, the heads and a pack. -/
lemma Kept.accept (heng : eng.Sound) (hnew : e.hash ∉ (s.tables e.epoch).headers)
    (hrun : eng.processEvent e s.engine = .ok (none, s'.engine))
    (hconnects : Connects size e e.epoch (eng.getEpoch s'.engine) (s.tables e.epoch) s s') :
    Kept eng (log ++ [e]) s' := by
  obtain ⟨hepoch, hnext⟩ := heng.accepted hrun
  have hfresh := h.fresh hgiven hepoch hnew
  have hcovered := h.covered
  have hes := h.current
  rw [← hepoch] at hnext hcovered hes
  have hcovered' := hfresh.covered rfl hcovered
  have hwith := hfresh.withEvent_eq rfl
  rw [← hes] at hwith
  have hlt := hgiven.epoch_lt
  have hepochs : ∀ x ∈ log ++ [e], x.epoch ≤ e.epoch ∧ x.epoch < 2 ^ 32 := by
    intro x hx
    rcases List.mem_append.mp hx with hx | hx
    · rw [hepoch]
      exact h.epochs x hx
    · rw [List.mem_singleton.mp hx]
      exact ⟨le_rfl, hlt⟩
  rcases hnext with hstay | hseal
  · obtain ⟨hpacks, htables⟩ := hconnects.stays hstay
    rw [hwith] at hpacks htables
    constructor
    · exact hconnects.good
    · omega
    · rw [hstay, htables _ (by omega), if_pos rfl]
      exact .inl ⟨_, rfl⟩
    · rw [hstay, tables, htables _ (by omega), if_pos rfl, Option.getD_some]
    · intro m hm hm'
      rw [tables, htables m hm', if_neg (by omega)]
      exact h.later m (by omega) hm'
    · intro m hm
      rw [htables m (by omega), if_neg (by omega)]
      exact h.earlier m (by omega)
    · rwa [hstay]
    · exact hfresh.closed_append
    · rwa [hstay]
    · rw [hpacks]
      exact h.packed.onNewEvent hfresh rfl hcovered'
  · obtain ⟨hpacks, htables⟩ := hconnects.seals hseal
    rw [hwith] at hpacks
    -- no event of the new epoch has been accepted
    have hnone : ∀ x ∈ log ++ [e], x.epoch ≠ e.epoch + 1 := by
      intro x hx heq
      have hle := (hepochs x hx).1
      omega
    have hheaders : headersOf (log ++ [e]) (e.epoch + 1) = ∅ := by
      rw [Finset.eq_empty_iff_forall_notMem]
      intro id hid
      obtain ⟨x, hx, heq, -⟩ := mem_headersOf.mp hid
      exact hnone x hx heq
    constructor
    · exact hconnects.good
    · omega
    · rw [hseal, htables _ (by omega), if_neg (by omega), if_pos rfl]
      exact .inl ⟨_, rfl⟩
    · rw [hseal, tables, htables _ (by omega), if_neg (by omega), if_pos rfl, Option.getD_some,
        headsOf, hheaders]
      exact h.later _ (by omega) (by omega)
    · intro m hm hm'
      rw [tables, htables m hm', if_neg (by omega), if_neg (by omega)]
      exact h.later m (by omega) hm'
    · intro m hm
      rw [htables m (by omega), if_pos (by omega)]
    · intro x hx
      have hx' := hepochs x hx
      exact ⟨by omega, hx'.2⟩
    · exact hfresh.closed_append
    · intro x hx heq
      exact absurd (heq.trans hseal) (hnone x hx)
    · rw [hpacks]
      exact (h.packed.onNewEvent hfresh rfl hcovered').onNewEpoch hcovered'

lemma Kept.step (heng : eng.Sound) {err : Option (EventErr ε)}
    (hrun : (processEvent eng size e).run s = .ok (err, s')) :
    Processed eng size e s err s' ∧ Kept eng (if err.isNone then log ++ [e] else log) s' := by
  have hprocessed := (processEvent_yields heng h.good hgiven.epoch_lt
    (fun heq => heq ▸ h.alive)).returned err s' hrun
  refine ⟨hprocessed, ?_⟩
  cases err with
  | none =>
    obtain ⟨hnew, hengine, hconnects⟩ := hprocessed
    exact h.accept hgiven heng hnew hengine hconnects
  | some err => exact h.reject hgiven hprocessed.1 hprocessed.2.1

end

lemma accepted_append (steps : List (Step κ ε)) (step : Step κ ε) :
    accepted (steps ++ [step]) =
      if step.err.isNone then accepted steps ++ [step.event] else accepted steps := by
  unfold accepted
  by_cases herr : step.err.isNone = true
  · simp [List.filter_append, herr]
  · simp [List.filter_append, herr]

lemma Run.kept (heng : eng.Sound) {engine : κ} (hepoch : eng.getEpoch engine < 2 ^ 32)
    {steps : List (Step κ ε)} {s : EventService κ} (h : Run eng size engine steps s) :
    Kept eng (accepted steps) s := by
  induction h with
  | start => exact kept_new hepoch
  | call _ hgiven hrun ih =>
    rw [accepted_append]
    exact (ih.step hgiven heng hrun).2

/-- What a peer may rely on. The stored heads of the current epoch are the accepted events without
an accepted child. Each accepted event is in one pack of its epoch. What is in a pinned pack or in a
pack before it is a head of the pinned pack or an ancestor of one, so that it is connected once the
heads are. -/
structure CausallyComplete (eng : Consensus κ ε) (log : List Event) (s : EventService κ) :
    Prop where
  heads : Returns (stores (EpochStores.getHeads (eng.getEpoch s.engine))) s fun heads _ =>
    ∀ id, id ∈ heads ↔ ∃ x ∈ log, x.epoch = eng.getEpoch s.engine ∧ x.hash = id ∧
      ∀ y ∈ log, id ∉ y.parents
  one_pack : ∀ x ∈ log, ∃! i, x.hash ∈ s.packs.getPack x.epoch i
  pinned : ∀ n i, 1 ≤ i → i < s.packs.getPacksNumOrDefault n →
    ∃ info, s.packs.packInfos n i = some info ∧
      (∀ j ≤ i, ∀ id ∈ s.packs.getPack n j, ∃ h ∈ info.heads, Below log id h) ∧
      ∀ connected : Set EventID,
        (∀ x ∈ log, x.hash ∈ connected → ∀ p ∈ x.parents, p ∈ connected) →
        (∀ h ∈ info.heads, h ∈ connected) →
          ∀ j ≤ i, ∀ id ∈ s.packs.getPack n j, id ∈ connected

/-- Whoever has the heads of a pack has all events up to it. -/
lemma Kept.complete {log : List Event} {s : EventService κ} (h : Kept eng log s) :
    CausallyComplete eng log s := by
  have hle := h.epoch_le
  have hfits : s.epochs.Fits (eng.getEpoch s.engine) := by
    rcases h.opened with ⟨es, hopen⟩ | hnew
    · exact EpochStores.fits_of_open hopen
    · rw [hnew]
      exact EpochStores.fits_new (by omega)
  constructor
  · refine .zoom (((h.good.getHeads (by omega)).toReturns hfits).mono ?_)
    rintro heads epochs ⟨-, rfl⟩ id
    change id ∈ (s.tables (eng.getEpoch s.engine)).heads.sort ↔ _
    rw [h.current, Finset.mem_sort, mem_headsOf]
    constructor
    · rintro ⟨⟨x, hx, hxe, rfl⟩, hnone⟩
      exact ⟨x, hx, hxe, rfl, hnone⟩
    · rintro ⟨x, hx, hxe, rfl, hnone⟩
      exact ⟨⟨x, hx, hxe, rfl⟩, hnone⟩
  · intro x hx
    obtain ⟨i, hi⟩ := h.packed.all x hx
    refine ⟨i, by simpa [PackTables.getPack] using hi, fun j hj => ?_⟩
    exact h.packed.unique _ _ _ _ (by simpa [PackTables.getPack] using hj) hi
  · intro n i hpos hlt
    obtain ⟨info, hinfo, hbelow⟩ := h.packed.pinned n i hpos hlt
    have hbelow' : ∀ j ≤ i, ∀ id ∈ s.packs.getPack n j, ∃ a ∈ info.heads, Below log id a := by
      intro j hj id hid
      exact hbelow j hj id (by simpa [PackTables.getPack] using hid)
    refine ⟨info, hinfo, hbelow', fun connected hclosed hheads j hj id hid => ?_⟩
    obtain ⟨a, ha, hancestor⟩ := hbelow' j hj id hid
    clear hid
    -- from the head down to its ancestor
    induction hancestor using Relation.ReflTransGen.head_induction_on with
    | refl => exact hheads a ha
    | head hstep _ ih =>
      obtain ⟨x, hx, rfl, hparent⟩ := hstep
      exact hclosed x hx ih _ hparent

/-- In every parents-first run of `processEvent`, of accepted and rejected events through any number
of epochs, pinned packs are causally complete after each call. A call returns if the engine does and
the epoch of the event has begun. -/
theorem Run.causallyComplete (heng : eng.Sound) {engine : κ} (hepoch : eng.getEpoch engine < 2 ^ 32)
    {steps : List (Step κ ε)} {s : EventService κ}
    (h : Run eng size engine steps s) :
    CausallyComplete eng (accepted steps) s ∧
      ∀ e, Given eng (accepted steps) s e → e.epoch ≤ eng.getEpoch s.engine →
        (∃ r, eng.processEvent e s.engine = .ok r) →
          ∃ r, (processEvent eng size e).run s = .ok r := by
  have hkept := h.kept heng hepoch
  refine ⟨hkept.complete, fun e hgiven hle hreturns => ?_⟩
  have hyields : Yields _ (processEvent eng size e) s _ :=
    processEvent_yields heng hkept.good hgiven.epoch_lt fun heq => heq ▸ hkept.alive
  exact hyields.returns ⟨hkept.fits hgiven hle, hreturns⟩

end EventService

/-! ### Engines -/

/-- An engine that takes every event of its epoch and seals the epoch in the second frame. -/
def sealingEngine : Consensus ℕ String where
  processEvent e epoch :=
    if e.epoch ≠ epoch then .ok (some "event is too old or too new", epoch)
    else .ok (none, if e.frame = 2 then epoch + 1 else epoch)
  getEpoch epoch := epoch

lemma sealingEngine_sound : sealingEngine.Sound where
  accepted {e k k'} hrun := by
    simp only [sealingEngine] at hrun ⊢
    split_ifs at hrun with hne hframe
    · cases hrun
    · cases hrun
      exact ⟨not_not.mp hne, .inr rfl⟩
    · cases hrun
      exact ⟨not_not.mp hne, .inl rfl⟩
  rejected {e k err k'} hrun := by
    simp only [sealingEngine] at hrun ⊢
    split_ifs at hrun with hne
    · cases hrun
      rfl
    · cases hrun
    · cases hrun

/-- The first event of an epoch, and one after it that seals the epoch. -/
def openingEvent : Event := ⟨1, 1, 1, true, 1, 0, [], 1, 0, 0, 1⟩

@[inherit_doc openingEvent]
def sealingEvent : Event := ⟨1, 2, 2, true, 1, 0, [openingEvent.hash], 2, 0, 0, 2⟩

/-- The two events one after the other, with the epoch in between. -/
def sealedEpoch : EventServiceM ℕ (Option (EventErr String) × ℕ × Option (EventErr String)) := do
  let err ← EventService.processEvent sealingEngine (fun _ => 100) openingEvent
  let epoch := (← get).engine
  let err' ← EventService.processEvent sealingEngine (fun _ => 100) sealingEvent
  return (err, epoch, err')

lemma exists_run_sealedEpoch : ∃ s s', sealedEpoch.run (.new 1) = .ok ((none, 1, none), s') ∧
    EventService.Run sealingEngine (fun _ => 100) 1
      [⟨.new 1, openingEvent, none, s⟩, ⟨s, sealingEvent, none, s'⟩] s' := by
  obtain ⟨⟨r, s'⟩, hrun, rfl⟩ := map_eq_ok_iff.mp (by decide +kernel :
    (sealedEpoch.run (.new 1)).map (·.1) = .ok (none, 1, none))
  refine Exists.imp (fun s h => ⟨s', hrun, h⟩) ?_
  rw [sealedEpoch, StateT.run_bind] at hrun
  obtain ⟨⟨err, s⟩, hfirst, hrun⟩ := bind_eq_ok_iff.mp hrun
  obtain ⟨⟨_, _⟩, ⟨⟩, hrun⟩ := run_bind_eq_ok_iff.mp hrun
  obtain ⟨⟨err', s''⟩, hsecond, hrun⟩ := run_bind_eq_ok_iff.mp hrun
  obtain ⟨heq, rfl⟩ := Prod.mk.inj (Except.ok.inj hrun)
  obtain ⟨rfl, heq⟩ := Prod.mk.inj heq
  obtain ⟨hengine, rfl⟩ := Prod.mk.inj heq
  have hone : EventService.Run sealingEngine (fun _ => 100) 1
      [⟨.new 1, openingEvent, none, s⟩] s := .call .start ⟨by decide, by decide, fun _ => rfl⟩ hfirst
  refine ⟨s, .call hone ⟨?_, by decide, fun _ => hengine.symm⟩ hsecond⟩
  intro p hp
  exact ⟨openingEvent, List.mem_singleton_self _, (List.mem_singleton.mp hp).symm⟩

/-- An epoch that is sealed by its second event. -/
theorem causallyComplete_sealedEpoch :
    ∃ s s', EventService.Run sealingEngine (fun _ => 100) 1
        [⟨.new 1, openingEvent, none, s⟩, ⟨s, sealingEvent, none, s'⟩] s' ∧
      EventService.CausallyComplete sealingEngine [openingEvent, sealingEvent] s' := by
  obtain ⟨s, s', -, hrun⟩ := exists_run_sealedEpoch
  exact ⟨s, s', hrun, (EventService.Run.causallyComplete sealingEngine_sound (by decide) hrun).1⟩

def posetEngine {C : PosetCaches} (cfg : Config) : Consensus (Poset C) ProcessErr where
  processEvent e p := (Poset.processEvent cfg e).run p
  getEpoch p := p.epochState.epochN

/-- The engine of a node is as the service takes it to be, in every state: it accepts an event of
its epoch only, which stays the same or is followed by the next one, and a rejected event leaves the
epoch as it is. -/
theorem posetEngine_sound {C : PosetCaches} (cfg : Config) : (posetEngine (C := C) cfg).Sound where
  accepted hrun := (Poset.processEvent_epochN hrun).1 rfl
  rejected hrun := (Poset.processEvent_epochN hrun).2 rfl

end Lachesis
