import Lachesis.Core.Quorum
import Lachesis.Inter.Event
import Mathlib.Data.UInt
import Std.Data.ExtTreeMap

/-!
# Validators and stake counters

Stakes are added as the code adds them, in 64 bits. `total` and `stakeOf` are the exact amounts;
below `2 ^ 63` the two agree and the quorum exceeds two thirds of the whole.
-/

namespace Lachesis

open Lachesis.Core

/-- `pos.Stake` -/
abbrev Stake := UInt64

/-- A validator of an epoch. -/
structure Validator where
  id : StakerID
  stake : Stake
  deriving DecidableEq, Repr

/-- `validators.Less`: by stake, then by id. -/
def Validator.less (a b : Validator) : Bool :=
  if a.stake ≠ b.stake then b.stake < a.stake else a.id < b.id

/-- `pos.Validators`: the sorted array, from which the code keeps its maps and its total. -/
structure Validators where
  sorted : List Validator
  pairwise_less : sorted.Pairwise fun a b => a.less b
  nodup_ids : (sorted.map (·.id)).Nodup
  stake_ne_zero : ∀ v ∈ sorted, v.stake ≠ 0
  deriving DecidableEq

namespace Validators

def len (V : Validators) : ℕ := V.sorted.length

/-- `Validators.SortedIDs` -/
def ids (V : Validators) : List StakerID := V.sorted.map (·.id)

/-- `Validators.SortedStakes` -/
def stakes (V : Validators) : List Stake := V.sorted.map (·.stake)

/-- `Validators.Exists` -/
def existsId (V : Validators) (id : StakerID) : Bool := id ∈ V.ids

/-- `Validators.Get`: nothing for a stranger. -/
def get (V : Validators) (id : StakerID) : Stake :=
  ((V.sorted.find? (·.id = id)).map (·.stake)).getD 0

/-- `Validators.GetIdx`: the position of a validator, `0` for a stranger. -/
def getIdx (V : Validators) (id : StakerID) : ℕ := if id ∈ V.ids then V.ids.idxOf id else 0

def totalStake (V : Validators) : Stake := V.stakes.foldl (· + ·) 0

def quorum (V : Validators) : Stake := V.totalStake * 2 / 3 + 1

/-- The validators as a set. -/
def members (V : Validators) : Finset StakerID := V.ids.toFinset

/-- The exact stake of a validator. -/
def stakeOf (V : Validators) (id : StakerID) : ℕ := (V.get id).toNat

/-- The exact total of the stakes. -/
def total (V : Validators) : ℕ := weight V.stakeOf V.members

variable {V : Validators} {u v : StakerID}

lemma mem_members : v ∈ V.members ↔ v ∈ V.ids := List.mem_toFinset

lemma nodup (V : Validators) : V.ids.Nodup := V.nodup_ids

@[simp] lemma length_ids (V : Validators) : V.ids.length = V.len := by simp [ids, len]

lemma ids_getIdx (hv : v ∈ V.members) : V.ids[V.getIdx v]? = some v := by
  have hv' := mem_members.mp hv
  rw [getIdx, if_pos hv', List.getElem?_eq_getElem (List.idxOf_lt_length_of_mem hv'),
    List.getElem_idxOf]

lemma getIdx_lt (hv : v ∈ V.members) : V.getIdx v < V.len := by
  have h := ids_getIdx hv
  rw [← length_ids]
  exact (List.getElem?_eq_some_iff.mp h).1

/-- Validators have different indexes. -/
lemma getIdx_inj (hu : u ∈ V.members) (hv : v ∈ V.members) : V.getIdx u = V.getIdx v ↔ u = v := by
  refine ⟨fun h => ?_, fun h => h ▸ rfl⟩
  have := ids_getIdx hu
  rw [h, ids_getIdx hv] at this
  exact (Option.some.inj this).symm

lemma getIdx_of_ids {i : ℕ} (h : V.ids[i]? = some v) : v ∈ V.members ∧ V.getIdx v = i := by
  obtain ⟨hi, hv⟩ := List.getElem?_eq_some_iff.mp h
  have hmem : v ∈ V.ids := hv ▸ List.getElem_mem hi
  refine ⟨mem_members.mpr hmem, ?_⟩
  rw [getIdx, if_pos hmem, ← hv, V.nodup.idxOf_getElem]

lemma exists_getIdx {i : ℕ} (hi : i < V.len) : ∃ v ∈ V.members, V.getIdx v = i := by
  have hi' : i < V.ids.length := by simpa using hi
  have h : V.ids[i]? = some V.ids[i] := List.getElem?_eq_getElem hi'
  obtain ⟨hmem, hidx⟩ := getIdx_of_ids h
  exact ⟨_, hmem, hidx⟩

/-! ### Sums of stakes -/

lemma get_id {w : Validator} (hw : w ∈ V.sorted) : V.get w.id = w.stake := by
  obtain ⟨w', hfind⟩ := Option.isSome_iff_exists.mp
    (List.find?_isSome (p := (·.id = w.id)) |>.mpr ⟨w, hw, by simp⟩)
  have hid : w'.id = w.id := by simpa using List.find?_some hfind
  have heq : w' = w :=
    List.inj_on_of_nodup_map V.nodup_ids (List.mem_of_find?_eq_some hfind) hw hid
  rw [get, hfind, heq]
  rfl

lemma map_get_ids (V : Validators) : V.ids.map V.get = V.stakes := by
  rw [ids, stakes, List.map_map]
  exact List.map_congr_left fun w hw => get_id hw

lemma stakes_getIdx (hv : v ∈ V.members) : V.stakes[V.getIdx v]? = some (V.get v) := by
  rw [← map_get_ids, List.getElem?_map, ids_getIdx hv]
  rfl

lemma totalStake_eq (V : Validators) : V.totalStake = ∑ v ∈ V.members, V.get v := by
  rw [totalStake, ← List.sum_eq_foldl, ← map_get_ids, members, List.sum_toFinset _ V.nodup]

/-- Stakes that fit are added up without overflow. -/
lemma toNat_sum_get (h : V.total < 2 ^ 64) {S : Finset StakerID} (hS : S ⊆ V.members) :
    (∑ v ∈ S, V.get v).toNat = weight V.stakeOf S := by
  induction S using Finset.induction_on with
  | empty => rfl
  | insert a S ha ih =>
    have hle : weight V.stakeOf (insert a S) ≤ V.total := weight_mono _ hS
    have hS' := ih ((Finset.subset_insert a S).trans hS)
    have hins : weight V.stakeOf (insert a S) = (V.get a).toNat + weight V.stakeOf S :=
      Finset.sum_insert ha
    rw [Finset.sum_insert ha, UInt64.toNat_add, hS', ← hins,
      Nat.mod_eq_of_lt (lt_of_le_of_lt hle h)]

lemma toNat_sum_get_le (V : Validators) (S : Finset StakerID) :
    (∑ v ∈ S, V.get v).toNat ≤ weight V.stakeOf S := by
  induction S using Finset.induction_on with
  | empty => exact le_rfl
  | insert a S ha ih =>
    have hins : weight V.stakeOf (insert a S) = (V.get a).toNat + weight V.stakeOf S :=
      Finset.sum_insert ha
    rw [Finset.sum_insert ha, UInt64.toNat_add, hins]
    exact (Nat.mod_le _ _).trans (Nat.add_le_add_left ih _)

lemma toNat_totalStake (h : V.total < 2 ^ 64) : V.totalStake.toNat = V.total := by
  rw [totalStake_eq, toNat_sum_get h subset_rfl, total]

lemma toNat_quorum (h : V.total < 2 ^ 63) : V.quorum.toNat = V.total * 2 / 3 + 1 := by
  have htot := toNat_totalStake (V := V) (by omega)
  simp only [quorum, UInt64.toNat_add, UInt64.toNat_div, UInt64.toNat_mul, htot]
  have h2 : (2 : UInt64).toNat = 2 := rfl
  have h3 : (3 : UInt64).toNat = 3 := rfl
  have h1 : (1 : UInt64).toNat = 1 := rfl
  rw [h2, h3, h1, Nat.mod_eq_of_lt (show V.total * 2 < 2 ^ 64 by omega)]
  exact Nat.mod_eq_of_lt (by omega)

lemma quorum_pos (V : Validators) : 0 < V.quorum.toNat := by
  have := (V.totalStake * 2).toNat_lt
  simp only [quorum, UInt64.toNat_add, UInt64.toNat_div]
  have h3 : (3 : UInt64).toNat = 3 := rfl
  have h1 : (1 : UInt64).toNat = 1 := rfl
  rw [h3, h1]
  omega

/-- Twice the whole is less than three quorums. -/
lemma supermajority (h : V.total < 2 ^ 63) : 2 * V.total < 3 * V.quorum.toNat := by
  rw [toNat_quorum h]
  omega

lemma quorum_le_sum_iff (h : V.total < 2 ^ 64) {S : Finset StakerID} (hS : S ⊆ V.members) :
    V.quorum ≤ ∑ v ∈ S, V.get v ↔ V.quorum.toNat ≤ weight V.stakeOf S := by
  rw [UInt64.le_iff_toNat_le, toNat_sum_get h hS]

end Validators

/-! ### The counter -/

/-- `pos.StakeCounter` -/
structure StakeCounter where
  validators : Validators
  already : List Bool
  quorum : Stake
  sum : Stake

def Validators.newCounter (V : Validators) : StakeCounter where
  validators := V
  already := List.replicate V.len false
  quorum := V.quorum
  sum := 0

namespace StakeCounter

/-- `StakeCounter.CountByIdx`: whether the validator had not been counted before. -/
def countByIdx (c : StakeCounter) (i : ℕ) : Except Fault (Bool × StakeCounter) :=
  match c.already[i]?, c.validators.stakes[i]? with
  | some true, _ => .ok (false, c)
  | some false, some stake =>
    .ok (true, { c with already := c.already.set i true, sum := c.sum + stake })
  | _, _ => .error .indexOutOfRange

def count (c : StakeCounter) (id : StakerID) : Except Fault (Bool × StakeCounter) :=
  c.countByIdx (c.validators.getIdx id)

def hasQuorum (c : StakeCounter) : Bool := c.quorum ≤ c.sum

/-- The counter of `V` that has counted exactly the validators of `S`. -/
structure Counted (V : Validators) (S : Finset StakerID) (c : StakeCounter) : Prop where
  validators : c.validators = V
  quorum : c.quorum = V.quorum
  already : c.already = V.ids.map fun v => decide (v ∈ S)
  sum : c.sum = ∑ v ∈ S, V.get v
  subset : S ⊆ V.members

variable {V : Validators} {S : Finset StakerID} {c : StakeCounter} {v : StakerID}

lemma counted_newCounter (V : Validators) : V.newCounter.Counted V ∅ where
  validators := rfl
  quorum := rfl
  already := by
    simp only [Validators.newCounter, Finset.notMem_empty, decide_false, List.map_const',
      Validators.length_ids]
  sum := rfl
  subset := Finset.empty_subset _

variable (h : c.Counted V S)
include h

lemma Counted.already_getIdx (hv : v ∈ V.members) :
    c.already[V.getIdx v]? = some (decide (v ∈ S)) := by
  rw [h.already, List.getElem?_map, Validators.ids_getIdx hv]
  rfl

/-- A validator is counted once. -/
lemma Counted.countByIdx (hv : v ∈ V.members) :
    ∃ c', c.countByIdx (V.getIdx v) = .ok (decide (v ∉ S), c') ∧ c'.Counted V (insert v S) := by
  have halready := h.already_getIdx hv
  have hstake : c.validators.stakes[V.getIdx v]? = some (V.get v) := by
    rw [h.validators]
    exact Validators.stakes_getIdx hv
  by_cases hvS : v ∈ S
  · refine ⟨c, ?_, by rwa [Finset.insert_eq_of_mem hvS]⟩
    simp only [StakeCounter.countByIdx, halready, hvS, decide_true, not_true, decide_false]
  · refine ⟨{ c with already := c.already.set (V.getIdx v) true, sum := c.sum + V.get v },
      by simp only [StakeCounter.countByIdx, halready, hstake, hvS, decide_false,
        not_false_eq_true, decide_true], ⟨h.validators, h.quorum, ?_, ?_, ?_⟩⟩
    · -- the marks after setting the one at the validator's position
      refine List.ext_getElem? fun i => ?_
      simp only [List.getElem?_set, h.already, List.getElem?_map, List.length_map,
        Validators.length_ids]
      by_cases hi : V.getIdx v = i
      · subst hi
        rw [if_pos rfl, if_pos (Validators.getIdx_lt hv), Validators.ids_getIdx hv]
        simp
      · rw [if_neg hi]
        cases hid : V.ids[i]? with
        | none => rfl
        | some u =>
          have hu := Validators.getIdx_of_ids hid
          have huv : u ≠ v := by
            rintro rfl
            exact hi hu.2
          simp [huv]
    · rw [Finset.sum_insert hvS, h.sum, add_comm]
    · exact Finset.insert_subset hv h.subset

lemma Counted.count (hv : v ∈ V.members) :
    ∃ c', c.count v = .ok (decide (v ∉ S), c') ∧ c'.Counted V (insert v S) := by
  rw [StakeCounter.count, h.validators]
  exact h.countByIdx hv

lemma Counted.toNat_sum (hV : V.total < 2 ^ 64) : c.sum.toNat = weight V.stakeOf S := by
  rw [h.sum, Validators.toNat_sum_get hV h.subset]

lemma Counted.hasQuorum_iff : c.hasQuorum = true ↔ V.quorum ≤ ∑ v ∈ S, V.get v := by
  simp [hasQuorum, h.quorum, h.sum]

/-- A counter that has a quorum has counted one, even if the stakes overflow. -/
lemma Counted.quorum_le_weight (hquorum : c.hasQuorum = true) :
    V.quorum.toNat ≤ weight V.stakeOf S :=
  (UInt64.le_iff_toNat_le.mp (h.hasQuorum_iff.mp hquorum)).trans (V.toNat_sum_get_le S)

/-- Counting finds a quorum when the weight is one. -/
lemma Counted.hasQuorum_iff_weight (hV : V.total < 2 ^ 64) :
    c.hasQuorum = true ↔ V.quorum.toNat ≤ weight V.stakeOf S := by
  rw [h.hasQuorum_iff, Validators.quorum_le_sum_iff hV h.subset]

end StakeCounter

end Lachesis
