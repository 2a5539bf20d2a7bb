import Lachesis.Core.ByteRecords
import Lachesis.Inter.Event

/-!
# Byte-encoded vector clocks

A clock has one record for each branch: two numbers of 4 bytes (`HighestBeforeSeq`), a time of 8
bytes (`HighestBeforeTime`) or a number of 4 bytes (`LowestAfterSeq`).
-/

namespace Lachesis

open Lachesis.Core

/-- `vector.BranchSeq`: the greatest and the least number observed on a branch. -/
@[ext]
structure BranchSeq where
  seq : ℕ
  minSeq : ℕ
  deriving DecidableEq, Repr

/-- `forkDetectedSeq`: the mark of an observed fork. -/
def forkDetectedSeq : BranchSeq := ⟨0, 2147483647⟩

def BranchSeq.isForkDetected (s : BranchSeq) : Bool := s = forkDetectedSeq

lemma isForkDetected_forkDetectedSeq : forkDetectedSeq.isForkDetected = true := rfl

/-- Both numbers fit in 32 bits. -/
def BranchSeq.Fits (s : BranchSeq) : Prop := s.seq < 2 ^ 32 ∧ s.minSeq < 2 ^ 32

lemma fits_forkDetectedSeq : forkDetectedSeq.Fits := by
  constructor <;> decide

/-! ### `HighestBeforeSeq` -/

/-- For each branch, what an event observes of it. -/
structure HighestBeforeSeq where
  records : ByteRecords 8

namespace HighestBeforeSeq

/-- `NewHighestBeforeSeq` -/
def new (size : ℕ) : HighestBeforeSeq := ⟨.zeros size⟩

def size (b : HighestBeforeSeq) : ℕ := b.records.size

def get (b : HighestBeforeSeq) (i : ℕ) : BranchSeq where
  seq := leNat ((b.records.get i).take 4)
  minSeq := leNat ((b.records.get i).drop 4)

def set (b : HighestBeforeSeq) (i : ℕ) (s : BranchSeq) : HighestBeforeSeq :=
  ⟨b.records.set i (leBytes 4 s.seq ++ leBytes 4 s.minSeq) (by simp)⟩

/-- What is read has 32 bits. -/
lemma fits_get (b : HighestBeforeSeq) (i : ℕ) : (b.get i).Fits := by
  have hlen := b.records.length_get i
  have h₁ := leNat_lt ((b.records.get i).take 4)
  have h₂ := leNat_lt ((b.records.get i).drop 4)
  rw [List.length_take, hlen] at h₁
  rw [List.length_drop, hlen] at h₂
  exact ⟨h₁, h₂⟩

lemma get_set (b : HighestBeforeSeq) (i j : ℕ) {s : BranchSeq} (hs : s.Fits) :
    (b.set i s).get j = if j = i then s else b.get j := by
  simp only [get, set]
  rw [ByteRecords.get_set (by omega)]
  split_ifs with h
  · rw [List.take_left' (by simp), List.drop_left' (by simp), leNat_leBytes hs.1,
      leNat_leBytes hs.2]
  · rfl

@[simp] lemma size_set (b : HighestBeforeSeq) (i : ℕ) (s : BranchSeq) :
    (b.set i s).size = max b.size (i + 1) :=
  ByteRecords.size_set (by omega) b.records i (by simp)

@[simp] lemma size_new (n : ℕ) : (new n).size = n := ByteRecords.size_zeros (by omega) n

@[simp] lemma get_new (n i : ℕ) : (new n).get i = ⟨0, 0⟩ := by
  simp only [get, new]
  rw [ByteRecords.get_zeros, List.take_replicate, List.drop_replicate, leNat_replicate_zero,
    leNat_replicate_zero]

/-- Behind the end of the vector there are zeros. -/
lemma get_of_size_le {b : HighestBeforeSeq} {i : ℕ} (h : b.size ≤ i) : b.get i = ⟨0, 0⟩ := by
  unfold get
  rw [ByteRecords.get_of_size_le h, List.take_replicate, List.drop_replicate,
    leNat_replicate_zero, leNat_replicate_zero]

end HighestBeforeSeq

/-! ### `HighestBeforeTime` -/

/-- For each branch, the claimed time of the greatest event observed on it. -/
structure HighestBeforeTime where
  records : ByteRecords 8

namespace HighestBeforeTime

/-- `NewHighestBeforeTime` -/
def new (size : ℕ) : HighestBeforeTime := ⟨.zeros size⟩

def get (b : HighestBeforeTime) (i : ℕ) : Timestamp := .ofNat (leNat (b.records.get i))

def set (b : HighestBeforeTime) (i : ℕ) (time : Timestamp) : HighestBeforeTime :=
  ⟨b.records.set i (leBytes 8 time.toNat) (by simp)⟩

lemma get_set (b : HighestBeforeTime) (i j : ℕ) (t : Timestamp) :
    (b.set i t).get j = if j = i then t else b.get j := by
  simp only [get, set]
  rw [ByteRecords.get_set (by omega)]
  split_ifs with h
  · rw [leNat_leBytes (t.toNat_lt), UInt64.ofNat_toNat]
  · rfl

end HighestBeforeTime

/-! ### `LowestAfterSeq` -/

/-- For each branch, the least number of an event on it that observes an event. -/
structure LowestAfterSeq where
  records : ByteRecords 4

namespace LowestAfterSeq

/-- `NewLowestAfterSeq` -/
def new (size : ℕ) : LowestAfterSeq := ⟨.zeros size⟩

def get (b : LowestAfterSeq) (i : ℕ) : ℕ := leNat (b.records.get i)

def set (b : LowestAfterSeq) (i : ℕ) (seq : ℕ) : LowestAfterSeq :=
  ⟨b.records.set i (leBytes 4 seq) (by simp)⟩

lemma get_set (b : LowestAfterSeq) (i j : ℕ) {seq : ℕ} (hs : seq < 2 ^ 32) :
    (b.set i seq).get j = if j = i then seq else b.get j := by
  simp only [get, set]
  rw [ByteRecords.get_set (by omega)]
  split_ifs with h
  · exact leNat_leBytes hs
  · rfl

@[simp] lemma get_new (n i : ℕ) : (new n).get i = 0 := by
  simp only [get, new]
  rw [ByteRecords.get_zeros, leNat_replicate_zero]

end LowestAfterSeq

end Lachesis
