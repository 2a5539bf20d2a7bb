import Lachesis.Poset.Election
import Lachesis.Vector.Index

/-!
# The store of the consensus engine

What the engine keeps in its databases: the main database with the checkpoint, the epoch, the marks
of confirmed events and the frames, and one database for each epoch with its roots and its vector
index. Roots are read through a cache that is kept up to date when a root is added.
-/

namespace Lachesis

open Lachesis.Core Std

/-! ### Records -/

/-- `poset.GenesisState`: the outcome of the previous epoch. -/
structure GenesisState where
  epoch : ℕ
  time : Timestamp
  lastAtropos : EventID
  appHash : Hash
  deriving DecidableEq, Repr

/-- `poset.EpochState` -/
structure EpochState where
  epochN : ℕ
  prevEpoch : GenesisState
  validators : Validators
  deriving DecidableEq

/-- `poset.Checkpoint` -/
structure Checkpoint where
  lastDecidedFrame : ℕ
  lastBlockN : ℕ
  lastAtropos : EventID
  appHash : Hash
  deriving DecidableEq, Repr

/-- `poset.FrameInfo` -/
structure FrameInfo where
  timeOffset : Int64
  timeRatio : Timestamp
  lastConsensusTime : Timestamp
  deriving DecidableEq, Repr

def FrameInfo.calcConsensusTime (f : FrameInfo) (lamport : ℕ) : Timestamp :=
  (Int64.ofNat lamport * f.timeRatio.toInt64 + f.timeOffset).toUInt64

/-- `inter.Block`, as far as `NewBlock` fills it. -/
structure Block where
  index : ℕ
  time : Timestamp
  atropos : EventID
  prevHash : EventID
  events : List EventID
  deriving DecidableEq, Repr

/-! ### The main database -/

/-- The key of a frame. -/
@[ext]
structure FrameKey where
  epoch : ℕ
  frame : ℕ
  deriving DecidableEq, Repr

namespace FrameKey

instance : Ord FrameKey := ⟨compareLex (compareOn epoch) (compareOn frame)⟩

instance : TransOrd FrameKey :=
  inferInstanceAs (TransCmp (compareLex (compareOn epoch) (compareOn frame)))

instance : LawfulEqOrd FrameKey where
  eq_of_compare {a b} h := by
    have h' : compareLex (compareOn epoch) (compareOn frame) a b = .eq := h
    simp only [compareLex_eq_eq, compareOn, Std.compare_eq_iff_eq] at h'
    exact FrameKey.ext h'.1 h'.2

end FrameKey

/-- The marks of confirmed events: the frame that confirmed each of them. -/
abbrev Marks := ExtTreeMap EventID ℕ

/-- `Store.GetEventConfirmedOn`: zero for an event that is not confirmed. -/
def Marks.confirmedOn (marks : Marks) (id : EventID) : ℕ := marks[id]?.getD 0

/-- `Store.SetEventConfirmedOn` -/
def Marks.set (marks : Marks) (id : EventID) (on : ℕ) : Marks := marks.insert id on

lemma Marks.confirmedOn_set (marks : Marks) (id x : EventID) (on : ℕ) :
    (marks.set id on).confirmedOn x = if x = id then on else marks.confirmedOn x := by
  simp only [confirmedOn, set, ExtTreeMap.getElem?_insert, LawfulEqCmp.compare_eq_iff_eq,
    eq_comm (a := id)]
  split_ifs <;> rfl

/-- The tables of the main database. -/
structure MainTables where
  checkpoint : Option Checkpoint
  genesis : Option EpochState
  epoch : Option EpochState
  confirmedEvent : Marks
  frameInfos : ExtTreeMap FrameKey FrameInfo

/-! ### Roots -/

namespace RootAndSlot

instance : Ord RootAndSlot :=
  ⟨compareLex (compareOn fun r => r.slot.frame)
    (compareLex (compareOn fun r => r.slot.validator) (compareOn id))⟩

instance : TransOrd RootAndSlot :=
  inferInstanceAs (TransCmp (compareLex (compareOn fun r : RootAndSlot => r.slot.frame)
    (compareLex (compareOn fun r => r.slot.validator) (compareOn RootAndSlot.id))))

instance : LawfulEqOrd RootAndSlot where
  eq_of_compare {a b} h := by
    have h' : compareLex (compareOn fun r : RootAndSlot => r.slot.frame)
      (compareLex (compareOn fun r => r.slot.validator) (compareOn RootAndSlot.id)) a b = .eq := h
    simp only [compareLex_eq_eq, compareOn, Std.compare_eq_iff_eq] at h'
    obtain ⟨hframe, hvalidator, hid⟩ := h'
    cases a with
    | mk ida sa =>
      cases b with
      | mk idb sb =>
        cases sa
        cases sb
        simp_all

end RootAndSlot

/-- The table `Roots` of an epoch, in the order of `rootRecordBytes`. -/
abbrev RootRecords := ExtTreeMap RootAndSlot Unit

/-- A record more; the keys are all there is to it. -/
def RootRecords.put (records : RootRecords) (r : RootAndSlot) : RootRecords := records.insert r ()

/-- The records of one frame, in the order of the table. -/
def RootRecords.ofFrame (records : RootRecords) (f : ℕ) : List RootAndSlot :=
  records.keys.filter fun r => r.slot.frame = f

/-- `Store.epochTable.Roots` behind the cache `FrameRoots`. -/
structure RootsTable (C : Cache ℕ (List RootAndSlot)) where
  records : RootRecords
  cache : C.State

namespace RootsTable

variable {C : Cache ℕ (List RootAndSlot)}

/-- The table with an empty cache. -/
def wrap (records : RootRecords) : RootsTable C := ⟨records, C.empty⟩

/-- `Store.AddRoot` -/
def addRoot (t : RootsTable C) (r : RootAndSlot) : RootsTable C :=
  let found := C.find t.cache r.slot.frame
  { records := t.records.put r
    cache := match found.1 with
      | some rr => C.add found.2 r.slot.frame (rr ++ [r])
      | none => found.2 }

/-- `Store.GetFrameRoots` -/
def getFrameRoots (t : RootsTable C) (f : ℕ) : List RootAndSlot × RootsTable C :=
  let found := C.find t.cache f
  match found.1 with
  | some rr => (rr, { t with cache := found.2 })
  | none => (t.records.ofFrame f, { t with cache := C.add found.2 f (t.records.ofFrame f) })

/-- What is cached are the records of the frame, in some order. -/
def Coherent (t : RootsTable C) : Prop :=
  C.All (fun f rr => rr.Perm (t.records.ofFrame f)) t.cache

end RootsTable

variable {r : RootAndSlot} {records : RootRecords}

lemma RootRecords.mem_ofFrame {f : ℕ} : r ∈ records.ofFrame f ↔ r ∈ records ∧ r.slot.frame = f := by
  simp [ofFrame, ExtTreeMap.mem_keys]

lemma RootRecords.nodup_ofFrame (records : RootRecords) (f : ℕ) : (records.ofFrame f).Nodup :=
  ExtTreeMap.nodup_keys.filter _

lemma RootRecords.mem_put {x : RootAndSlot} : x ∈ records.put r ↔ x = r ∨ x ∈ records := by
  rw [put, ExtTreeMap.mem_insert, LawfulEqCmp.compare_eq_iff_eq, eq_comm]

/-- A root is new to its frame only. -/
lemma RootRecords.ofFrame_put (hr : r ∉ records) (f : ℕ) : ((records.put r).ofFrame f).Perm
      (if f = r.slot.frame then records.ofFrame f ++ [r] else records.ofFrame f) := by
  have hnodup : (records.ofFrame f ++ [r]).Nodup := by
    rw [List.nodup_append]
    refine ⟨nodup_ofFrame records f, List.nodup_singleton r, ?_⟩
    rintro x hx y hy rfl
    rw [List.mem_singleton] at hy
    exact hr (hy ▸ (mem_ofFrame.mp hx).1)
  split_ifs with hf
  · rw [List.perm_ext_iff_of_nodup (nodup_ofFrame _ f) hnodup]
    intro x
    simp only [mem_ofFrame, mem_put, List.mem_append, List.mem_singleton]
    constructor
    · rintro ⟨rfl | hx, hxf⟩
      · exact Or.inr rfl
      · exact Or.inl ⟨hx, hxf⟩
    · rintro (⟨hx, hxf⟩ | rfl)
      · exact ⟨Or.inr hx, hxf⟩
      · exact ⟨Or.inl rfl, hf.symm⟩
  · rw [List.perm_ext_iff_of_nodup (nodup_ofFrame _ f) (nodup_ofFrame _ f)]
    intro x
    simp only [mem_ofFrame, mem_put]
    constructor
    · rintro ⟨rfl | hx, hxf⟩
      · exact absurd hxf.symm hf
      · exact ⟨hx, hxf⟩
    · exact fun ⟨hx, hxf⟩ => ⟨Or.inr hx, hxf⟩

namespace RootsTable

variable {C : Cache ℕ (List RootAndSlot)} {t : RootsTable C}

lemma coherent_wrap (records : RootRecords) : (wrap records : RootsTable C).Coherent :=
  Cache.all_empty

lemma records_getFrameRoots (f : ℕ) : (t.getFrameRoots f).2.records = t.records := by
  cases h : (C.find t.cache f).1 <;> simp only [getFrameRoots, h]

/-- The cached roots of a frame are those of the table. -/
lemma Coherent.getFrameRoots (h : t.Coherent) (f : ℕ) :
    (t.getFrameRoots f).1.Perm (t.records.ofFrame f) ∧ (t.getFrameRoots f).2.Coherent := by
  cases hfind : (C.find t.cache f).1 with
  | some rr =>
    simp only [RootsTable.getFrameRoots, hfind]
    exact ⟨h.of_find_eq hfind, h.find f⟩
  | none =>
    simp only [RootsTable.getFrameRoots, hfind]
    exact ⟨List.Perm.rfl, (h.find f).add List.Perm.rfl⟩

/-- A second read returns the roots in the same order. -/
lemma getFrameRoots_again (hC : C.Steady) (t : RootsTable C) (f : ℕ) :
    ((t.getFrameRoots f).2.getFrameRoots f).1 = (t.getFrameRoots f).1 := by
  cases hfind : (C.find t.cache f).1 with
  | some rr =>
    have hagain : (C.find (C.find t.cache f).2 f).1 = some rr := by
      rw [C.find_fst] at hfind ⊢
      exact hC _ _ _ hfind
    simp only [getFrameRoots, hfind, hagain]
  | none =>
    simp only [getFrameRoots, hfind]
    cases hagain : (C.find (C.add (C.find t.cache f).2 f (t.records.ofFrame f)) f).1 with
    | none => rfl
    | some rr =>
      rw [C.find_fst] at hagain
      rcases C.content_add _ _ _ _ _ hagain with ⟨-, rfl⟩ | ⟨hne, -⟩
      · rfl
      · exact absurd rfl hne

lemma records_addRoot (r : RootAndSlot) : (t.addRoot r).records = t.records.put r := rfl

/-- The cached slice is extended with the table. -/
lemma Coherent.addRoot (h : t.Coherent) (hr : r ∉ t.records) : (t.addRoot r).Coherent := by
  have hother : ∀ (f : ℕ) (rr : List RootAndSlot), f ≠ r.slot.frame → rr.Perm (t.records.ofFrame f) →
      rr.Perm ((t.records.put r).ofFrame f) := by
    intro f rr hf hrr
    exact hrr.trans (by simpa [hf] using (RootRecords.ofFrame_put hr f).symm)
  cases hfind : (C.find t.cache r.slot.frame).1 with
  | some rr =>
    simp only [Coherent, RootsTable.addRoot, hfind]
    refine (h.find r.slot.frame).add_update ?_ hother
    have hrr : rr.Perm (t.records.ofFrame r.slot.frame) := h.of_find_eq hfind
    exact (hrr.append_right [r]).trans (by simpa using (RootRecords.ofFrame_put hr r.slot.frame).symm)
  | none =>
    simp only [Coherent, RootsTable.addRoot, hfind]
    exact h.find_update hfind hother

end RootsTable

/-! ### The databases -/

/-- The database of an epoch. -/
structure EpochDb where
  roots : RootRecords
  vectorIndex : VecTables

def EpochDb.empty : EpochDb := ⟨∅, .empty⟩

/-- What is stored: the main database and the databases of the epochs by number. -/
structure Disk where
  main : MainTables
  epochDbs : ExtTreeMap ℕ EpochDb

end Lachesis
