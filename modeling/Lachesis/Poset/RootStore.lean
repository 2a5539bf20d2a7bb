import Lachesis.Core.Slices
import Lachesis.Kvdb.SyncedPool
import Lachesis.Poset.Store

/-!
# Roots in their database

The roots of an epoch are the keys of a table, one database for each epoch. `GetFrameRoots` reads the
keys of a frame and keeps the list in a cache; `AddRoot` appends to the list in the cache, which is
shared with whoever asked for it before. Here the keys are bytes, the database is one of a pool that
is flushed from time to time, and the lists are slices of shared arrays.
-/

namespace Lachesis

open Lachesis.Core Std

/-! ### Keys -/

/-- `bigendian.Int32ToBytes` and the bytes of an identifier, for numbers of `k` bytes. -/
def bigEndian (k n : ℕ) : Bytes := (leBytes k n).reverse

/-- The number that the bytes write, most significant first. -/
def ofBigEndian (bs : Bytes) : ℕ := leNat bs.reverse

@[simp] lemma length_bigEndian (k n : ℕ) : (bigEndian k n).length = k := by
  simp [bigEndian]

lemma ofBigEndian_bigEndian {k n : ℕ} (h : n < 256 ^ k) : ofBigEndian (bigEndian k n) = n := by
  rw [ofBigEndian, bigEndian, List.reverse_reverse, leNat_leBytes h]

lemma bigEndian_inj {k m n : ℕ} (hm : m < 256 ^ k) (hn : n < 256 ^ k)
    (h : bigEndian k m = bigEndian k n) : m = n := by
  rw [← ofBigEndian_bigEndian hm, h, ofBigEndian_bigEndian hn]

namespace RootAndSlot

/-- `rootRecordBytes` -/
def recordBytes (r : RootAndSlot) : Bytes :=
  bigEndian 4 r.slot.frame ++ (bigEndian 4 r.slot.validator ++ bigEndian 32 r.id)

/-- The numbers fit into the types of the code. -/
structure Fits (r : RootAndSlot) : Prop where
  frame : r.slot.frame < 2 ^ 32
  validator : r.slot.validator < 2 ^ 32
  id : r.id < 2 ^ 256

/-- The loop of `GetFrameRoots` at a key. -/
def ofRecordBytes (f : ℕ) (key : Bytes) : Except Fault RootAndSlot :=
  if key.length ≠ 4 + 4 + 32 then .error (.crit .incorrectRootKeyLen)
  else
    let r : RootAndSlot :=
      { id := ofBigEndian (key.drop (4 + 4))
        slot := ⟨ofBigEndian (key.take 4), ofBigEndian ((key.drop 4).take 4)⟩ }
    if r.slot.frame ≠ f then .error (.crit .invalidRootFrame) else .ok r

variable {r r' : RootAndSlot}

/-- A record is read back from its key. -/
lemma ofRecordBytes_recordBytes (h : r.Fits) : ofRecordBytes r.slot.frame r.recordBytes = .ok r := by
  have hframe := ofBigEndian_bigEndian (h.frame.trans_eq (by norm_num : 2 ^ 32 = 256 ^ 4))
  have hvalidator := ofBigEndian_bigEndian (h.validator.trans_eq (by norm_num : 2 ^ 32 = 256 ^ 4))
  have hid := ofBigEndian_bigEndian (h.id.trans_eq (by norm_num : 2 ^ 256 = 256 ^ 32))
  have htake : r.recordBytes.take 4 = bigEndian 4 r.slot.frame := by
    simp [recordBytes]
  have hdrop : r.recordBytes.drop 4 = bigEndian 4 r.slot.validator ++ bigEndian 32 r.id := by
    simp [recordBytes]
  have hdrop' : r.recordBytes.drop (4 + 4) = bigEndian 32 r.id := by
    rw [← List.drop_drop, hdrop]
    simp
  have htake' : (r.recordBytes.drop 4).take 4 = bigEndian 4 r.slot.validator := by
    rw [hdrop]
    simp
  have hlen : r.recordBytes.length = 4 + 4 + 32 := by simp [recordBytes]
  simp only [ofRecordBytes, hlen, htake, hdrop', htake', hframe, hvalidator, hid, ne_eq,
    not_true_eq_false, if_false]

lemma isPrefixOf_recordBytes (h : r.Fits) {f : ℕ} (hf : f < 2 ^ 32) :
    (bigEndian 4 f).isPrefixOf r.recordBytes ↔ r.slot.frame = f := by
  rw [List.isPrefixOf_iff_prefix]
  constructor
  · rintro ⟨t, ht⟩
    have hframe := (List.append_inj ht (by simp)).1
    exact (bigEndian_inj (hf.trans_eq (by norm_num)) (h.frame.trans_eq (by norm_num)) hframe).symm
  · rintro rfl
    exact List.prefix_append _ _

end RootAndSlot

/-! ### The store -/

/-- `name`: the name of the database of an epoch. -/
def epochName (n : ℕ) : String := "poset-epoch-" ++ toString n

lemma epochName_inj {m n : ℕ} (h : epochName m = epochName n) : m = n := by
  have hlist := congrArg String.toList h
  simp only [epochName, String.toList_append, List.append_cancel_left_eq] at hlist
  have hdigits : Nat.toDigits 10 m = Nat.toDigits 10 n := by
    rw [← Nat.toList_repr, ← Nat.toList_repr]
    exact hlist
  rw [← Nat.ofDigitChars_toDigits (b := 10) (n := m) (by decide) (by decide), hdigits,
    Nat.ofDigitChars_toDigits (by decide) (by decide)]

/-- The prefix `r` of the table `Roots`. -/
def rootsTag : Bytes := [114]

/-- `poset.Store`, as far as roots go. A store without a cache has one that keeps nothing. -/
structure RootStore (C : Cache ℕ SharedSlice) where
  dbs : SyncedPool
  epochDb : Option String
  frameRoots : C.State
  /-- The arrays of the lists of roots. -/
  arrays : Arrays RootAndSlot

namespace RootStore

variable {C : Cache ℕ SharedSlice}

/-- `NewStore` -/
def new (dbs : SyncedPool) : RootStore C := ⟨dbs, none, C.empty, []⟩

/-- The open database of the epoch; one that is to be dropped was closed. -/
def openDb (s : RootStore C) : Option String :=
  s.epochDb.filter fun name => name ∉ s.dbs.queuedDrops

/-- `Store.AddRoot` -/
def addRoot (grow : ℕ → ℕ) (s : RootStore C) (r : RootAndSlot) : Except Fault (RootStore C) :=
  match s.openDb with
  | none => .error (.crit .failedToPutRoot)
  | some name =>
    let dbs := s.dbs.withDb name (Table.put (s.dbs.getDb name) rootsTag r.recordBytes [])
    let found := C.find s.frameRoots r.slot.frame
    match found.1 with
    | none => .ok { s with dbs, frameRoots := found.2 }
    | some rr =>
      let appended := s.arrays.append grow rr r
      .ok { s with
        dbs
        frameRoots := C.add found.2 r.slot.frame appended.1
        arrays := appended.2 }

/-- `Store.GetFrameRoots` -/
def getFrameRoots (grow : ℕ → ℕ) (s : RootStore C) (f : ℕ) :
    Except Fault (SharedSlice × RootStore C) :=
  let found := C.find s.frameRoots f
  match found.1 with
  | some rr => .ok (rr, { s with frameRoots := found.2 })
  | none =>
    match s.openDb with
    | none => .error .nilDereference
    | some name => do
      let keys := (Table.scanPrefix (s.dbs.getDb name) rootsTag (bigEndian 4 f)).map Prod.fst
      let roots ← keys.mapM (RootAndSlot.ofRecordBytes f)
      let made := s.arrays.make 200
      let rr := made.2.appendAll grow made.1 roots
      .ok (rr.1, { s with frameRoots := C.add found.2 f rr.1, arrays := rr.2 })

/-- `Store.RecreateEpochDb`: the previous database is closed and left to be dropped. -/
def recreateEpochDb (s : RootStore C) (n : ℕ) : RootStore C :=
  let prev := s.epochDb.getD (epochName (n - 1))
  let dbs := s.dbs.withDb prev (s.dbs.getDb prev)
  let dbs := { dbs with queuedDrops := prev :: dbs.queuedDrops }
  { s with
    dbs := dbs.withDb (epochName n) (dbs.getDb (epochName n))
    epochDb := some (epochName n)
    frameRoots := C.empty }

def flush (valueSize : ValueSize Bytes Bytes) (s : RootStore C) (id : Bytes) : RootStore C :=
  { s with dbs := s.dbs.flush valueSize id }

end RootStore

/-- `NewSyncedPool` over the databases as they were flushed. -/
def SyncedPool.reopen (dbs : SyncedPool) : SyncedPool :=
  ⟨dbs.wrappers.map fun _ w => .wrap w.underlying, []⟩

/-! ### What a scan finds -/

/-- The keys of the table `Roots` are those of the roots. -/
def Holds (w : Flushable Bytes Bytes) (added : List RootAndSlot) : Prop :=
  ∀ key, (Table.get w rootsTag key).isSome ↔ ∃ r ∈ added, r.recordBytes = key

section Holds

variable {w : Flushable Bytes Bytes} {added : List RootAndSlot} {f : ℕ}

lemma holds_wrap_empty : Holds (.wrap ∅) [] := by
  intro key
  simp [Table.get]

lemma Holds.put (h : Holds w added) (r : RootAndSlot) :
    Holds (Table.put w rootsTag r.recordBytes []) (added ++ [r]) := by
  intro key
  rw [Table.get, Table.put, Flushable.get_put, ← Table.get]
  split_ifs with hkey
  · rw [prefixed_inj] at hkey
    simp [hkey]
  · rw [prefixed_inj] at hkey
    rw [h]
    constructor
    · rintro ⟨x, hx, rfl⟩
      exact ⟨x, List.mem_append_left _ hx, rfl⟩
    · rintro ⟨x, hx, rfl⟩
      rcases List.mem_append.mp hx with hx | hx
      · exact ⟨x, hx, rfl⟩
      · obtain rfl := List.mem_singleton.mp hx
        exact absurd rfl hkey

lemma Holds.of_get {w' : Flushable Bytes Bytes} (h : Holds w added)
    (hget : ∀ key, Table.get w' rootsTag key = Table.get w rootsTag key) : Holds w' added := by
  intro key
  rw [hget, h]

variable (h : Holds w added) (hfits : ∀ r ∈ added, r.Fits) (hf : f < 2 ^ 32)
include h hfits hf

lemma Holds.mem_scan {key : Bytes} :
    key ∈ (Table.scanPrefix w rootsTag (bigEndian 4 f)).map Prod.fst ↔
      ∃ r ∈ added, r.slot.frame = f ∧ r.recordBytes = key := by
  rw [List.mem_map]
  constructor
  · rintro ⟨pair, hpair, rfl⟩
    obtain ⟨hget, hpre⟩ := Table.mem_scanPrefix.mp hpair
    obtain ⟨r, hr, hkey⟩ := (h pair.1).mp (by rw [hget]; rfl)
    rw [← hkey, RootAndSlot.isPrefixOf_recordBytes (hfits r hr) hf] at hpre
    exact ⟨r, hr, hpre, hkey⟩
  · rintro ⟨r, hr, hframe, rfl⟩
    obtain ⟨value, hvalue⟩ := Option.isSome_iff_exists.mp ((h _).mpr ⟨r, hr, rfl⟩)
    refine ⟨(r.recordBytes, value), Table.mem_scanPrefix.mpr ⟨hvalue, ?_⟩, rfl⟩
    exact (RootAndSlot.isPrefixOf_recordBytes (hfits r hr) hf).mpr hframe

lemma Holds.ofRecordBytes_scan {key : Bytes}
    (hkey : key ∈ (Table.scanPrefix w rootsTag (bigEndian 4 f)).map Prod.fst) :
    ∃ r ∈ added, r.slot.frame = f ∧ r.recordBytes = key ∧
      RootAndSlot.ofRecordBytes f key = .ok r := by
  obtain ⟨r, hr, hframe, hbytes⟩ := (h.mem_scan hfits hf).mp hkey
  refine ⟨r, hr, hframe, hbytes, ?_⟩
  rw [← hbytes, ← hframe]
  exact RootAndSlot.ofRecordBytes_recordBytes (hfits r hr)

/-- A scan with the bytes of a frame finds its roots. -/
lemma Holds.mapM_scan (hnodup : added.Nodup) :
    ∃ roots, ((Table.scanPrefix w rootsTag (bigEndian 4 f)).map Prod.fst).mapM
      (RootAndSlot.ofRecordBytes f) = .ok roots ∧
      roots.Perm (added.filter fun r => r.slot.frame = f) := by
  obtain ⟨roots, hroots⟩ := exists_mapM_eq_ok fun key hkey => by
    obtain ⟨r, -, -, -, hok⟩ := h.ofRecordBytes_scan hfits hf hkey
    exact ⟨r, hok⟩
  refine ⟨roots, hroots, ?_⟩
  rw [mapM_eq_ok_iff] at hroots
  have hkeys : ((Table.scanPrefix w rootsTag (bigEndian 4 f)).map Prod.fst).Nodup := by
    apply List.pairwise_map.mpr
    refine (Table.sortedPairs_scanPrefix w rootsTag (bigEndian 4 f)).imp ?_
    intro a b hlt heq
    rw [heq, compare_self] at hlt
    cases hlt
  have hdistinct : (roots.map (Except.ok (ε := Fault))).Nodup := by
    rw [← hroots]
    refine hkeys.map_on ?_
    intro key hkey key' hkey' heq
    obtain ⟨r, -, -, hbytes, hok⟩ := h.ofRecordBytes_scan hfits hf hkey
    obtain ⟨r', -, -, hbytes', hok'⟩ := h.ofRecordBytes_scan hfits hf hkey'
    rw [hok, hok'] at heq
    rw [← hbytes, ← hbytes', Except.ok.inj heq]
  rw [List.perm_ext_iff_of_nodup (hdistinct.of_map _) (hnodup.filter _)]
  intro r
  have hmem : r ∈ roots ↔ Except.ok (ε := Fault) r ∈ roots.map .ok := by
    simp
  rw [hmem, ← hroots, List.mem_map, List.mem_filter, decide_eq_true_iff]
  constructor
  · rintro ⟨key, hkey, hok⟩
    obtain ⟨r', hr', hframe, -, hok'⟩ := h.ofRecordBytes_scan hfits hf hkey
    obtain rfl : r' = r := Except.ok.inj (hok'.symm.trans hok)
    exact ⟨hr', hframe⟩
  · rintro ⟨hr, rfl⟩
    exact ⟨r.recordBytes, (h.mem_scan hfits hf).mpr ⟨r, hr, rfl, rfl⟩,
      RootAndSlot.ofRecordBytes_recordBytes (hfits r hr)⟩

end Holds

/-! ### Runs -/

/-- What was done to a store: the epoch, the roots added since its database was made, the slices that
`GetFrameRoots` returned with their elements at that time, and all that at the last flush. -/
structure RootHistory where
  epoch : ℕ
  added : List RootAndSlot
  returned : List (SharedSlice × List RootAndSlot)
  flushedDbs : SyncedPool
  flushedEpoch : ℕ
  flushedAdded : List RootAndSlot

namespace RootStore

variable {C : Cache ℕ SharedSlice} {grow : ℕ → ℕ}

/-- Roots of distinct events are added and read, the cache drops entries, epochs follow each other,
the pool is flushed, and the process is restarted, which opens the database of the flushed epoch. -/
inductive Run (grow : ℕ → ℕ) : RootStore C → RootHistory → Prop
  | start (n : ℕ) (hn : 1 ≤ n) :
      Run grow ((new ⟨∅, []⟩).recreateEpochDb n) ⟨n, [], [], ⟨∅, []⟩, n, []⟩
  | addRoot {s s' : RootStore C} {g : RootHistory} (h : Run grow s g) (r : RootAndSlot)
      (hr : r.Fits) (hnew : ∀ x ∈ g.added, x.id ≠ r.id) (hs : s.addRoot grow r = .ok s') :
      Run grow s' { g with added := g.added ++ [r] }
  | getFrameRoots {s s' : RootStore C} {g : RootHistory} {rr : SharedSlice} (h : Run grow s g) (f : ℕ)
      (hf : f < 2 ^ 32) (hs : s.getFrameRoots grow f = .ok (rr, s')) :
      Run grow s' { g with returned := g.returned ++ [(rr, s'.arrays.read rr)] }
  | evict {s : RootStore C} {g : RootHistory} (h : Run grow s g) (frameRoots : C.State)
      (hsub : ∀ f rr, C.content frameRoots f = some rr → C.content s.frameRoots f = some rr) :
      Run grow { s with frameRoots } g
  | recreateEpochDb {s : RootStore C} {g : RootHistory} (h : Run grow s g) :
      Run grow (s.recreateEpochDb (g.epoch + 1)) { g with epoch := g.epoch + 1, added := [] }
  | flush {s : RootStore C} {g : RootHistory} (h : Run grow s g)
      (valueSize : ValueSize Bytes Bytes) (id : Bytes) :
      Run grow (s.flush valueSize id)
        { g with
          flushedDbs := (s.flush valueSize id).dbs
          flushedEpoch := g.epoch
          flushedAdded := g.added }
  | restart {s : RootStore C} {g : RootHistory} (h : Run grow s g) :
      Run grow ((new g.flushedDbs.reopen).recreateEpochDb g.flushedEpoch)
        { g with epoch := g.flushedEpoch, added := g.flushedAdded, returned := [] }

/-- The roots that a database is to hold. -/
structure Roots (added : List RootAndSlot) : Prop where
  fits : ∀ r ∈ added, r.Fits
  nodup : added.Nodup

/-- A pool in which the epoch's database holds the roots and no later one was made. -/
structure Stored (dbs : SyncedPool) (n : ℕ) (added : List RootAndSlot) : Prop where
  later : ∀ m > n, dbs.wrappers[epochName m]? = none
  holds : Holds (dbs.getDb (epochName n)) added

/-- What the cache holds for a frame: its roots, in a slice that is not shorter than any that was
returned of the same array. -/
def Cached (s : RootStore C) (g : RootHistory) (f : ℕ) (rr : SharedSlice) : Prop :=
  s.arrays.Valid rr ∧ (s.arrays.read rr).Perm (g.added.filter fun r => r.slot.frame = f) ∧
    ∀ p ∈ g.returned, p.1.array = rr.array → p.1.len ≤ rr.len

/-- The lists in the cache, no two of them in one array, and those that were returned. -/
structure Lists (s : RootStore C) (g : RootHistory) : Prop where
  cached : C.All (s.Cached g) s.frameRoots
  apart : ∀ f f' rr rr', C.content s.frameRoots f = some rr → C.content s.frameRoots f' = some rr' →
    rr.array = rr'.array → f = f'
  returned : ∀ p ∈ g.returned, s.arrays.Valid p.1 ∧ s.arrays.read p.1 = p.2

/-- The invariant of a run. -/
structure Inv (s : RootStore C) (g : RootHistory) : Prop where
  epoch_pos : 1 ≤ g.epoch
  epochDb : s.epochDb = some (epochName g.epoch)
  kept : (s.dbs.wrappers[epochName g.epoch]?).isSome
  queued : ∀ m ≥ g.epoch, epochName m ∉ s.dbs.queuedDrops
  stored : Stored s.dbs g.epoch g.added
  roots : Roots g.added
  lists : s.Lists g
  flushedEpoch_pos : 1 ≤ g.flushedEpoch
  flushed : Stored g.flushedDbs.reopen g.flushedEpoch g.flushedAdded
  flushedRoots : Roots g.flushedAdded

/-! ### The databases of the epochs -/

section Databases

variable {dbs : SyncedPool} {n : ℕ} {added : List RootAndSlot} {s : RootStore C}

lemma stored_empty (n : ℕ) : Stored ⟨∅, []⟩ n [] where
  later := by simp
  holds := by
    simp only [SyncedPool.getDb, ExtTreeMap.getElem?_empty, Option.getD_none]
    exact holds_wrap_empty

lemma getElem?_withDb (dbs : SyncedPool) (name name' : String) (w : Flushable Bytes Bytes) :
    (dbs.withDb name w).wrappers[name']? = if name = name' then some w else dbs.wrappers[name']? := by
  simp [SyncedPool.withDb, ExtTreeMap.getElem?_insert]

/-- The pool after `RecreateEpochDb`, whose previous database is none of the epoch or later. -/
lemma Stored.recreateEpochDb (h : Stored s.dbs n added)
    (hprev : ∀ m ≥ n, s.epochDb.getD (epochName (n - 1)) ≠ epochName m) :
    (((s.recreateEpochDb n).dbs).wrappers[epochName n]?).isSome ∧
      Stored (s.recreateEpochDb n).dbs n added := by
  have hne := hprev n le_rfl
  refine ⟨?_, ?_, ?_⟩
  · simp only [RootStore.recreateEpochDb, getElem?_withDb]
    simp
  · intro m hm
    have hm' : epochName n ≠ epochName m := fun heq => hm.ne (epochName_inj heq)
    simp only [RootStore.recreateEpochDb, getElem?_withDb]
    rw [if_neg hm', if_neg (hprev m hm.le), h.later m hm]
  · have hdb : (s.recreateEpochDb n).dbs.getDb (epochName n) = s.dbs.getDb (epochName n) := by
      simp only [RootStore.recreateEpochDb, SyncedPool.getDb_withDb]
      rw [SyncedPool.getDb, SyncedPool.getDb]
      simp only [getElem?_withDb]
      rw [if_neg hne]
      rfl
    rw [hdb]
    exact h.holds

lemma queuedDrops_recreateEpochDb (s : RootStore C) (n : ℕ) :
    (s.recreateEpochDb n).dbs.queuedDrops =
      s.epochDb.getD (epochName (n - 1)) :: s.dbs.queuedDrops := rfl

lemma flagKey_not_root : ¬ rootsTag <+: flagKey := by
  decide

/-- Flushed roots are there after the pool is opened again. -/
lemma Stored.flush (h : Stored dbs n added) (hkept : (dbs.wrappers[epochName n]?).isSome)
    (hqueued : epochName n ∉ dbs.queuedDrops) (valueSize : ValueSize Bytes Bytes)
    (id : Bytes) :
    ((dbs.flush valueSize id).wrappers[epochName n]?).isSome ∧
      Stored (dbs.flush valueSize id) n added ∧
      Stored (dbs.flush valueSize id).reopen n added := by
  obtain ⟨w, hw⟩ := Option.isSome_iff_exists.mp hkept
  have hflush := SyncedPool.wrappers_flush valueSize id hw hqueued
  have hlater : ∀ m > n, (dbs.flush valueSize id).wrappers[epochName m]? = none := by
    intro m hm
    simp [SyncedPool.flush, ExtTreeMap.getElem?_map, ExtTreeMap.getElem?_filter, h.later m hm]
  have hdb : dbs.getDb (epochName n) = w := by simp [SyncedPool.getDb, hw]
  have hdb' : (dbs.flush valueSize id).getDb (epochName n) =
      SyncedPool.flushDb valueSize id w := by simp [SyncedPool.getDb, hflush]
  have hget : ∀ key, Table.get (SyncedPool.flushDb valueSize id w) rootsTag key =
      Table.get w rootsTag key := fun key =>
    SyncedPool.get_flushDb valueSize id w fun heq => flagKey_not_root ⟨key, heq⟩
  have hholds := h.holds
  rw [hdb] at hholds
  refine ⟨by simp [hflush], ⟨hlater, ?_⟩, ⟨?_, ?_⟩⟩
  · rw [hdb']
    exact hholds.of_get hget
  · intro m hm
    simp [SyncedPool.reopen, ExtTreeMap.getElem?_map, hlater m hm]
  · have hreopen : (dbs.flush valueSize id).reopen.getDb (epochName n) =
        .wrap (SyncedPool.flushDb valueSize id w).underlying := by
      simp [SyncedPool.getDb, SyncedPool.reopen, ExtTreeMap.getElem?_map, hflush]
    rw [hreopen]
    refine hholds.of_get fun key => (Eq.trans ?_ (hget key))
    simp [Table.get, Flushable.get, SyncedPool.flushDb, SyncedPool.writeClean, Flushable.wrap,
      Flushable.flushBatches_of_not_fails valueSize fun _ => rfl, Flushable.flush]

end Databases

/-! ### Steps -/

section Steps

variable {s s' : RootStore C} {g : RootHistory} {f : ℕ} {rr : SharedSlice} {r : RootAndSlot}

lemma Inv.openDb (h : s.Inv g) : s.openDb = some (epochName g.epoch) := by
  simp [RootStore.openDb, h.epochDb, h.queued _ le_rfl]

lemma Cached.mono {g' : RootHistory} (h : s.Cached g f rr)
    (hvalid : s'.arrays.Valid rr) (hread : s'.arrays.read rr = s.arrays.read rr)
    (hadded : (g'.added.filter fun r => r.slot.frame = f) =
      g.added.filter fun r => r.slot.frame = f)
    (hreturned : ∀ p ∈ g'.returned, p ∉ g.returned → p.1.array = rr.array → p.1.len ≤ rr.len) :
    s'.Cached g' f rr := by
  obtain ⟨-, hperm, hlongest⟩ := h
  refine ⟨hvalid, ?_, ?_⟩
  · rw [hread, hadded]
    exact hperm
  · intro p hp harray
    by_cases hold : p ∈ g.returned
    · exact hlongest p hold harray
    · exact hreturned p hp hold harray

lemma filter_added_of_ne (added : List RootAndSlot) (hf : f ≠ r.slot.frame) :
    ((added ++ [r]).filter fun r => r.slot.frame = f) =
      added.filter fun r => r.slot.frame = f := by
  rw [List.filter_append]
  simp [Ne.symm hf]

lemma filter_added_of_eq (added : List RootAndSlot) :
    ((added ++ [r]).filter fun x => x.slot.frame = r.slot.frame) =
      (added.filter fun x => x.slot.frame = r.slot.frame) ++ [r] := by
  rw [List.filter_append]
  simp

lemma Roots.add (h : Roots g.added) (hr : r.Fits) (hnew : ∀ x ∈ g.added, x.id ≠ r.id) :
    Roots (g.added ++ [r]) where
  fits x hx := by
    rcases List.mem_append.mp hx with hx | hx
    · exact h.fits x hx
    · exact List.mem_singleton.mp hx ▸ hr
  nodup := by
    rw [List.nodup_append]
    refine ⟨h.nodup, List.nodup_singleton r, ?_⟩
    intro x hx y hy heq
    exact hnew x hx (by rw [heq, List.mem_singleton.mp hy])

lemma Stored.put {dbs : SyncedPool} {n : ℕ} {added : List RootAndSlot} (h : Stored dbs n added)
    (r : RootAndSlot) :
    Stored (dbs.withDb (epochName n)
      (Table.put (dbs.getDb (epochName n)) rootsTag r.recordBytes [])) n (added ++ [r]) where
  later m hm := by
    have hne : epochName n ≠ epochName m := fun heq => hm.ne (epochName_inj heq)
    rw [getElem?_withDb, if_neg hne, h.later m hm]
  holds := by
    rw [SyncedPool.getDb_withDb]
    exact h.holds.put r

section Lists

variable {c : C.State} (h : s.Lists g)
  (hsub : ∀ f rr, C.content c f = some rr → C.content s.frameRoots f = some rr)
include h hsub

lemma Lists.add_uncached (hnone : C.content c r.slot.frame = none) (dbs : SyncedPool) :
    Lists { s with dbs, frameRoots := c } { g with added := g.added ++ [r] } where
  cached f rr hrr := by
    have hcached := h.cached f rr (hsub f rr hrr)
    have hf : f ≠ r.slot.frame := by
      rintro rfl
      rw [hnone] at hrr
      cases hrr
    exact hcached.mono hcached.1 rfl (filter_added_of_ne g.added hf) fun p hp hold => absurd hp hold
  apart f f' rr rr' hrr hrr' := h.apart f f' rr rr' (hsub f rr hrr) (hsub f' rr' hrr')
  returned := h.returned

lemma Lists.return_cached (hrr : C.content s.frameRoots f = some rr) :
    Lists { s with frameRoots := c }
      { g with returned := g.returned ++ [(rr, s.arrays.read rr)] } where
  cached f' rr' hrr' := by
    have hcached := h.cached f' rr' (hsub f' rr' hrr')
    refine hcached.mono hcached.1 rfl rfl ?_
    intro p hp hold harray
    have hp' : p = (rr, s.arrays.read rr) := by simpa [hold] using hp
    subst hp'
    obtain rfl := h.apart f f' rr rr' hrr (hsub f' rr' hrr') harray
    exact (Option.some.inj (hrr.symm.trans (hsub f rr' hrr'))) ▸ le_rfl
  apart f f' rr rr' hrr hrr' := h.apart f f' rr rr' (hsub f rr hrr) (hsub f' rr' hrr')
  returned p hp := by
    rcases List.mem_append.mp hp with hp | hp
    · exact h.returned p hp
    · obtain rfl := List.mem_singleton.mp hp
      exact ⟨(h.cached f rr hrr).1, rfl⟩

lemma Lists.apart_add {k : ℕ} {t : SharedSlice}
    (ht : ∀ f rr, f ≠ k → C.content s.frameRoots f = some rr → rr.array ≠ t.array)
    (f₁ f₂ : ℕ) (rr₁ rr₂ : SharedSlice) (h₁ : C.content (C.add c k t) f₁ = some rr₁)
    (h₂ : C.content (C.add c k t) f₂ = some rr₂) (heq : rr₁.array = rr₂.array) : f₁ = f₂ := by
  rcases C.content_add _ _ _ _ _ h₁ with ⟨rfl, rfl⟩ | ⟨hf₁, h₁⟩ <;>
    rcases C.content_add _ _ _ _ _ h₂ with ⟨hf, hrr₂⟩ | ⟨hf₂, h₂⟩
  · exact hf.symm
  · exact absurd heq.symm (ht f₂ rr₂ hf₂ (hsub f₂ rr₂ h₂))
  · exact absurd (hrr₂ ▸ heq) (ht f₁ rr₁ hf₁ (hsub f₁ rr₁ h₁))
  · exact h.apart f₁ f₂ rr₁ rr₂ (hsub f₁ rr₁ h₁) (hsub f₂ rr₂ h₂) heq

/-- A cached list may be appended to: all other slices are of other arrays, or not longer. -/
lemma Lists.append (hrr : C.content s.frameRoots r.slot.frame = some rr) (grow : ℕ → ℕ)
    (dbs : SyncedPool) :
    Lists { s with
        dbs
        frameRoots := C.add c r.slot.frame (s.arrays.append grow rr r).1
        arrays := (s.arrays.append grow rr r).2 }
      { g with added := g.added ++ [r] } := by
  obtain ⟨hvalid, hperm, hlongest⟩ := h.cached _ _ hrr
  obtain ⟨hvalid', hread'⟩ := hvalid.append grow r
  obtain ⟨hlen, harray, -⟩ := Arrays.append_array grow s.arrays rr r
  -- a slice that was there has the array of the new one only if it has the old one's
  have hold : ∀ t : SharedSlice, s.arrays.Valid t → t.array = (s.arrays.append grow rr r).1.array →
      t.array = rr.array := by
    intro t ht heq
    rcases harray with hsame | hnew
    · exact heq.trans hsame
    · exact absurd (heq.trans hnew) ht.array_lt.ne
  have hother : ∀ f' rr', f' ≠ r.slot.frame → C.content s.frameRoots f' = some rr' →
      rr'.array ≠ rr.array := fun f' rr' hf' hrr' heq => hf' (h.apart f' _ rr' rr hrr' hrr heq)
  refine ⟨?_, h.apart_add hsub fun f' rr' hf' hrr' heq =>
    hother f' rr' hf' hrr' (hold rr' (h.cached f' rr' hrr').1 heq), ?_⟩
  · intro f' rr' hrr'
    rcases C.content_add _ _ _ _ _ hrr' with ⟨rfl, rfl⟩ | ⟨hf', hrr'⟩
    · refine ⟨hvalid', ?_, ?_⟩
      · simp only
        rw [hread', filter_added_of_eq]
        exact hperm.append_right [r]
      · intro p hp heq
        rw [hlen]
        exact (hlongest p hp (hold p.1 (h.returned p hp).1 heq)).trans (Nat.le_succ _)
    · have hcached := h.cached f' rr' (hsub f' rr' hrr')
      obtain ⟨hkeep, hread⟩ := hcached.1.append_other hvalid
        (fun heq => absurd heq (hother f' rr' hf' (hsub f' rr' hrr'))) grow r
      exact hcached.mono hkeep hread (filter_added_of_ne g.added hf') fun p hp hold => absurd hp hold
  · intro p hp
    obtain ⟨hpvalid, hpread⟩ := h.returned p hp
    obtain ⟨hkeep, hread⟩ := hpvalid.append_other hvalid (hlongest p hp) grow r
    exact ⟨hkeep, hread.trans hpread⟩

lemma Lists.made {roots : List RootAndSlot}
    (hroots : roots.Perm (g.added.filter fun r => r.slot.frame = f)) (grow : ℕ → ℕ) :
    let made := s.arrays.make 200
    let rr := made.2.appendAll grow made.1 roots
    rr.2.read rr.1 = roots ∧
      Lists { s with frameRoots := C.add c f rr.1, arrays := rr.2 }
        { g with returned := g.returned ++ [(rr.1, rr.2.read rr.1)] } := by
  intro made rr
  have hmade : s.arrays.length ≤ made.2.length := by simp [made, Arrays.make]
  obtain ⟨hvalid, hread, harray, hkept⟩ := (Arrays.valid_make s.arrays 200).appendAll grow roots
    (m := s.arrays.length) le_rfl hmade
  rw [Arrays.read_make, List.nil_append] at hread
  have hkeep : ∀ t : SharedSlice, s.arrays.Valid t → rr.2.Valid t ∧ rr.2.read t = s.arrays.read t ∧
      t.array ≠ rr.1.array := by
    intro t ht
    obtain ⟨hv, hr⟩ := hkept t (ht.of_new []) ht.array_lt
    exact ⟨hv, hr.trans (ht.read_new []), (ht.array_lt.trans_le harray).ne⟩
  refine ⟨hread, ?_, h.apart_add hsub fun f' rr' _ hrr' => (hkeep rr' (h.cached f' rr' hrr').1).2.2,
    ?_⟩
  · intro f' rr' hrr'
    rcases C.content_add _ _ _ _ _ hrr' with ⟨rfl, rfl⟩ | ⟨hf', hrr'⟩
    · refine ⟨hvalid, hread ▸ hroots, ?_⟩
      intro p hp heq
      rcases List.mem_append.mp hp with hp | hp
      · exact absurd heq (hkeep p.1 (h.returned p hp).1).2.2
      · rw [List.mem_singleton.mp hp]
    · have hcached := h.cached f' rr' (hsub f' rr' hrr')
      obtain ⟨hv, hr, hne⟩ := hkeep rr' hcached.1
      refine hcached.mono hv hr rfl ?_
      intro p hp hold heq
      have hp' : p = (rr.1, rr.2.read rr.1) := by simpa [hold] using hp
      rw [hp'] at heq
      exact absurd heq.symm hne
  · intro p hp
    rcases List.mem_append.mp hp with hp | hp
    · obtain ⟨hv, hr⟩ := h.returned p hp
      obtain ⟨hv', hr', -⟩ := hkeep p.1 hv
      exact ⟨hv', hr'.trans hr⟩
    · rw [List.mem_singleton.mp hp]
      exact ⟨hvalid, rfl⟩

end Lists

/-- `AddRoot` reaches no `Crit`. -/
lemma Inv.exists_addRoot (h : s.Inv g) (grow : ℕ → ℕ) (r : RootAndSlot) :
    ∃ s', s.addRoot grow r = .ok s' := by
  simp only [RootStore.addRoot, h.openDb]
  cases (C.find s.frameRoots r.slot.frame).1 with
  | none => exact ⟨_, rfl⟩
  | some rr => exact ⟨_, rfl⟩

lemma content_of_find {k : ℕ} (f : ℕ) (rr : SharedSlice)
    (h : C.content (C.find s.frameRoots k).2 f = some rr) : C.content s.frameRoots f = some rr :=
  C.content_find _ _ _ _ h

/-- A cached slice is extended, those returned before keep their roots. -/
lemma Inv.addRoot (h : s.Inv g) (hr : r.Fits) (hnew : ∀ x ∈ g.added, x.id ≠ r.id)
    (hs : s.addRoot grow r = .ok s') : s'.Inv { g with added := g.added ++ [r] } := by
  have hstored := h.stored.put r
  have hkept : ((s.dbs.withDb (epochName g.epoch) (Table.put (s.dbs.getDb (epochName g.epoch))
      rootsTag r.recordBytes [])).wrappers[epochName g.epoch]?).isSome := by
    simp [getElem?_withDb]
  have hroots := h.roots.add hr hnew
  simp only [RootStore.addRoot, h.openDb] at hs
  cases hfind : (C.find s.frameRoots r.slot.frame).1 with
  | none =>
    rw [hfind] at hs
    obtain rfl := Except.ok.inj hs
    rw [C.find_fst] at hfind
    have hnone : C.content (C.find s.frameRoots r.slot.frame).2 r.slot.frame = none := by
      rw [Option.eq_none_iff_forall_ne_some]
      intro rr hrr
      rw [content_of_find _ _ hrr] at hfind
      cases hfind
    exact ⟨h.epoch_pos, h.epochDb, hkept, h.queued, hstored, hroots,
      h.lists.add_uncached content_of_find hnone _, h.flushedEpoch_pos, h.flushed, h.flushedRoots⟩
  | some rr =>
    rw [hfind] at hs
    obtain rfl := Except.ok.inj hs
    rw [C.find_fst] at hfind
    exact ⟨h.epoch_pos, h.epochDb, hkept, h.queued, hstored, hroots,
      h.lists.append content_of_find hfind grow _, h.flushedEpoch_pos, h.flushed, h.flushedRoots⟩

/-- The returned slice has the roots of the frame. -/
lemma Inv.getFrameRoots (h : s.Inv g) (hf : f < 2 ^ 32) (grow : ℕ → ℕ) :
    ∃ rr s', s.getFrameRoots grow f = .ok (rr, s') ∧
      (s'.arrays.read rr).Perm (g.added.filter fun r => r.slot.frame = f) ∧
      s'.Inv { g with returned := g.returned ++ [(rr, s'.arrays.read rr)] } := by
  simp only [RootStore.getFrameRoots, h.openDb]
  cases hfind : (C.find s.frameRoots f).1 with
  | some rr =>
    rw [C.find_fst] at hfind
    exact ⟨rr, _, rfl, (h.lists.cached f rr hfind).2.1, h.epoch_pos, h.epochDb, h.kept, h.queued,
      h.stored, h.roots, h.lists.return_cached content_of_find hfind, h.flushedEpoch_pos, h.flushed,
      h.flushedRoots⟩
  | none =>
    obtain ⟨roots, hmap, hperm⟩ := h.stored.holds.mapM_scan h.roots.fits hf h.roots.nodup
    obtain ⟨hread, hlists⟩ := h.lists.made
      (content_of_find (s := s) (k := f)) hperm grow
    refine ⟨_, _, bind_eq_ok_iff.mpr ⟨roots, hmap, rfl⟩, ?_, h.epoch_pos, h.epochDb, h.kept, h.queued,
      h.stored, h.roots, hlists, h.flushedEpoch_pos, h.flushed, h.flushedRoots⟩
    simp only
    rw [hread]
    exact hperm

lemma lists_recreateEpochDb {n : ℕ}
    (h : ∀ p ∈ g.returned, s.arrays.Valid p.1 ∧ s.arrays.read p.1 = p.2) :
    (s.recreateEpochDb n).Lists g := by
  refine ⟨Cache.all_empty, ?_, h⟩
  intro f f' rr rr' hrr
  rw [RootStore.recreateEpochDb, C.content_empty] at hrr
  cases hrr

/-- A sealed epoch takes its roots with it. -/
lemma Inv.recreateEpochDb (h : s.Inv g) :
    (s.recreateEpochDb (g.epoch + 1)).Inv { g with epoch := g.epoch + 1, added := [] } := by
  have hnext : Stored s.dbs (g.epoch + 1) [] := by
    refine ⟨fun m hm => h.stored.later m (Nat.lt_of_succ_lt hm), ?_⟩
    rw [SyncedPool.getDb, h.stored.later _ (Nat.lt_succ_self _)]
    exact holds_wrap_empty
  have hprev : ∀ m ≥ g.epoch + 1, s.epochDb.getD (epochName (g.epoch + 1 - 1)) ≠ epochName m := by
    intro m hm heq
    rw [h.epochDb, Option.getD_some] at heq
    exact absurd (epochName_inj heq) (Nat.ne_of_lt hm)
  obtain ⟨hkept, hstored⟩ := hnext.recreateEpochDb hprev
  refine ⟨Nat.le_add_left _ _, rfl, hkept, ?_, hstored, ⟨by simp, List.nodup_nil⟩,
    lists_recreateEpochDb h.lists.returned, h.flushedEpoch_pos, h.flushed, h.flushedRoots⟩
  intro m hm
  rw [queuedDrops_recreateEpochDb, List.mem_cons, not_or]
  exact ⟨(hprev m hm).symm, h.queued m (Nat.le_of_succ_le hm)⟩

lemma Inv.opened {dbs : SyncedPool} {n : ℕ} {added : List RootAndSlot} (hn : 1 ≤ n)
    (hstored : Stored dbs n added) (hqueued : dbs.queuedDrops = []) (hroots : Roots added)
    (hpos : 1 ≤ g.flushedEpoch) (hflushed : Stored g.flushedDbs.reopen g.flushedEpoch g.flushedAdded)
    (hflushedRoots : Roots g.flushedAdded) :
    ((new dbs : RootStore C).recreateEpochDb n).Inv
      { g with epoch := n, added := added, returned := [] } := by
  have hprev : ∀ m ≥ n, (new dbs : RootStore C).epochDb.getD (epochName (n - 1)) ≠ epochName m := by
    intro m hm heq
    have hlt : n - 1 < m := (Nat.sub_lt hn Nat.one_pos).trans_le hm
    exact absurd (epochName_inj heq) hlt.ne
  obtain ⟨hkept, hopened⟩ := Stored.recreateEpochDb (s := (new dbs : RootStore C)) hstored hprev
  refine ⟨hn, rfl, hkept, ?_, hopened, hroots, lists_recreateEpochDb (by simp), hpos, hflushed,
    hflushedRoots⟩
  intro m hm
  rw [queuedDrops_recreateEpochDb, List.mem_cons, not_or, new, hqueued]
  exact ⟨(hprev m hm).symm, List.not_mem_nil⟩

lemma Inv.flush (h : s.Inv g) (valueSize : ValueSize Bytes Bytes) (id : Bytes) :
    (s.flush valueSize id).Inv
      { g with
        flushedDbs := (s.flush valueSize id).dbs
        flushedEpoch := g.epoch
        flushedAdded := g.added } := by
  obtain ⟨hkept, hstored, hreopen⟩ := h.stored.flush h.kept (h.queued _ le_rfl) valueSize id
  exact ⟨h.epoch_pos, h.epochDb, hkept, fun m _ => List.not_mem_nil, hstored, h.roots,
    ⟨h.lists.cached, h.lists.apart, h.lists.returned⟩, h.epoch_pos, hreopen, h.roots⟩

lemma Run.inv (h : Run grow s g) : s.Inv g := by
  induction h with
  | start n hn =>
    have hempty : (⟨∅, []⟩ : SyncedPool).reopen = ⟨∅, []⟩ := by simp [SyncedPool.reopen]
    exact Inv.opened (g := ⟨n, [], [], ⟨∅, []⟩, n, []⟩) hn (stored_empty n) rfl ⟨by simp, List.nodup_nil⟩
      hn (hempty ▸ stored_empty n) ⟨by simp, List.nodup_nil⟩
  | addRoot _ r hr hnew hs ih => exact ih.addRoot hr hnew hs
  | getFrameRoots _ f hf hs ih =>
    obtain ⟨rr, s', hs', -, hinv⟩ := ih.getFrameRoots hf grow
    rw [hs] at hs'
    obtain ⟨rfl, rfl⟩ := Prod.mk.inj (Except.ok.inj hs')
    exact hinv
  | evict _ c hsub ih =>
    exact ⟨ih.epoch_pos, ih.epochDb, ih.kept, ih.queued, ih.stored, ih.roots,
      ⟨fun f rr hrr => ih.lists.cached f rr (hsub f rr hrr),
        fun f f' rr rr' hrr hrr' => ih.lists.apart f f' rr rr' (hsub f rr hrr) (hsub f' rr' hrr'),
        ih.lists.returned⟩, ih.flushedEpoch_pos, ih.flushed, ih.flushedRoots⟩
  | recreateEpochDb _ ih => exact ih.recreateEpochDb
  | flush _ valueSize id ih => exact ih.flush valueSize id
  | restart _ ih =>
    exact Inv.opened ih.flushedEpoch_pos ih.flushed rfl ih.flushedRoots ih.flushedEpoch_pos
      ih.flushed ih.flushedRoots

end Steps

/-- After anything that is done to the store, `GetFrameRoots` returns the roots of the frame that were
added since the database of the epoch was made, each once, whether from the cache or from the
database; no `Crit` is reached, and the lists returned before have not changed. -/
theorem Run.frameRoots_exact {s : RootStore C} {g : RootHistory} (h : Run grow s g) :
    (∀ f < 2 ^ 32, ∃ rr s', s.getFrameRoots grow f = .ok (rr, s') ∧
      (s'.arrays.read rr).Nodup ∧
      (∀ r, r ∈ s'.arrays.read rr ↔ r ∈ g.added ∧ r.slot.frame = f) ∧
      ∀ p ∈ g.returned, s'.arrays.read p.1 = p.2) ∧
    (∀ f < 2 ^ 32, ∃ roots,
      ((Table.scanPrefix (s.dbs.getDb (epochName g.epoch)) rootsTag (bigEndian 4 f)).map
        Prod.fst).mapM (RootAndSlot.ofRecordBytes f) = .ok roots ∧
      ∀ rr, C.content s.frameRoots f = some rr → (s.arrays.read rr).Perm roots) ∧
    ∀ r, ∃ s', s.addRoot grow r = .ok s' := by
  have hinv := h.inv
  refine ⟨?_, ?_, hinv.exists_addRoot grow⟩
  · intro f hf
    obtain ⟨rr, s', hs', hperm, hinv'⟩ := hinv.getFrameRoots hf grow
    refine ⟨rr, s', hs', hperm.nodup_iff.mpr (hinv.roots.nodup.filter _), ?_, ?_⟩
    · intro r
      rw [hperm.mem_iff, List.mem_filter, decide_eq_true_iff]
    · intro p hp
      exact (hinv'.lists.returned p (List.mem_append_left _ hp)).2
  · intro f hf
    obtain ⟨roots, hmap, hperm⟩ := hinv.stored.holds.mapM_scan hinv.roots.fits hf hinv.roots.nodup
    refine ⟨roots, hmap, fun rr hrr => ?_⟩
    exact (hinv.lists.cached f rr hrr).2.1.trans hperm.symm

/-- Two roots of frame 5 and one of frame 6 are added, and are still there after a restart. -/
theorem frameRoots_exact_restarted :
    ∃ (s : RootStore (Cache.lru 2)) (g : RootHistory) (rr : SharedSlice)
      (s' : RootStore (Cache.lru 2)),
      Run id s g ∧ g.added = [⟨7, ⟨5, 3⟩⟩, ⟨8, ⟨5, 2⟩⟩, ⟨9, ⟨6, 3⟩⟩] ∧
      s.getFrameRoots id 5 = .ok (rr, s') ∧
      (s'.arrays.read rr).Perm [⟨7, ⟨5, 3⟩⟩, ⟨8, ⟨5, 2⟩⟩] := by
  have h₀ : Run (C := Cache.lru 2) id _ _ := .start 1 le_rfl
  obtain ⟨s₁, hs₁⟩ := h₀.inv.exists_addRoot id ⟨7, ⟨5, 3⟩⟩
  have h₁ := h₀.addRoot _ ⟨by norm_num, by norm_num, by norm_num⟩ (by simp) hs₁
  obtain ⟨s₂, hs₂⟩ := h₁.inv.exists_addRoot id ⟨8, ⟨5, 2⟩⟩
  have h₂ := h₁.addRoot _ ⟨by norm_num, by norm_num, by norm_num⟩ (by simp) hs₂
  obtain ⟨s₃, hs₃⟩ := h₂.inv.exists_addRoot id ⟨9, ⟨6, 3⟩⟩
  have h₃ := h₂.addRoot _ ⟨by norm_num, by norm_num, by norm_num⟩ (by simp) hs₃
  have h := (h₃.flush (fun _ => 0) [1]).restart
  obtain ⟨rr, s', hs', hnodup, hmem, -⟩ := h.frameRoots_exact.1 5 (by norm_num)
  refine ⟨_, _, rr, s', h, rfl, hs', ?_⟩
  change (s'.arrays.read rr).Perm
    (List.filter (·.slot.frame = 5) [⟨7, ⟨5, 3⟩⟩, ⟨8, ⟨5, 2⟩⟩, ⟨9, ⟨6, 3⟩⟩])
  rw [List.perm_ext_iff_of_nodup hnodup (by decide)]
  intro r
  rw [hmem, List.mem_filter, decide_eq_true_iff]
  rfl

end RootStore

end Lachesis
