import Lachesis.Core.Cache
import Lachesis.Utils.WeightedShuffle

/-!
# Turns of transactions

So that not all validators put a transaction into their events at once, they take turns: time since
the transaction was first seen is divided into rounds, and each round belongs to one validator. The
validators are in an order that is drawn anew for every sender, eight nonces and epoch.
-/

namespace Lachesis

open Lachesis.Core

/-- `TxTurnPeriod`, in nanoseconds. -/
def txTurnPeriod : ℤ := 4 * 10 ^ 9

def txTurnNonces : UInt64 := 8

/-- `bigendian.Int64ToBytes` -/
def int64ToBytes (n : UInt64) : List UInt8 := (leBytes 8 n.toNat).reverse

/-- The functions that the emitter takes from elsewhere, and times as it sees them. -/
structure TurnEnv where
  Time : Type
  /-- `Time.Sub`, in nanoseconds. -/
  sub : Time → Time → ℤ
  /-- `hash.Of` -/
  hashOf : List (List UInt8) → HashBytes
  sha256 : List UInt8 → HashBytes

/-- A transaction as far as its turn depends on it, and the epoch. -/
structure TurnTx where
  txHash : HashBytes
  sender : List UInt8
  accountNonce : UInt64
  epoch : UInt32

namespace TurnTx

variable (env : TurnEnv) (tx : TurnTx)

/-- `turnHash` of `isMyTxTurn` -/
def turnHash : HashBytes :=
  env.hashOf [tx.sender, int64ToBytes (tx.accountNonce / txTurnNonces), epochBytes tx.epoch]

/-- The time when the transaction was first seen, which is noted if it was not seen before. -/
def txTime (C : Cache HashBytes env.Time) (cache : C.State) (now : env.Time) : env.Time × C.State :=
  match C.find cache tx.txHash with
  | (some time, cache) => (time, cache)
  | (none, cache) => (now, C.add cache tx.txHash now)

/-- `Emitter.isMyTxTurn`. A negative size of a slice panics as an index does. -/
def isMyTxTurn (C : Cache HashBytes env.Time) (cache : C.State) (now : env.Time)
    (validatorsArr : List StakerID) (validatorsArrStakes : List Stake) (me : StakerID) :
    Except ShufflePanic (Bool × C.State) := do
  let (txTime, cache) := tx.txTime env C cache now
  if validatorsArr.length = 0 then .error .divideByZero
  else
    let roundIndex := ((env.sub now txTime).tdiv txTurnPeriod).tmod validatorsArr.length
    if roundIndex < 0 then .error .indexOutOfRange
    else
      let turns ← weightedPermutation env.sha256 (roundIndex.toNat + 1) validatorsArrStakes
        (tx.turnHash env)
      match turns[roundIndex.toNat]? with
      | none => .error .indexOutOfRange
      | some turn =>
        match validatorsArr[turn]? with
        | none => .error .indexOutOfRange
        | some validator => return (validator = me, cache)

/-- The number of the round in which a node asks, by the time it noted for the transaction. -/
def round (C : Cache HashBytes env.Time) (cache : C.State) (now : env.Time) : ℤ :=
  (env.sub now (tx.txTime env C cache now).1).tdiv txTurnPeriod

/-- The validator `turn r` and no other has the turn in the round `r`, for every node. -/
def Turns (validatorsArr : List StakerID) (validatorsArrStakes : List Stake)
    (turn : ℕ → StakerID) : Prop :=
  ∀ (C : Cache HashBytes env.Time) (cache : C.State) (now : env.Time) (r : ℕ),
    tx.round env C cache now = r → ∀ me, ∃ cache',
      tx.isMyTxTurn env C cache now validatorsArr validatorsArrStakes me =
        .ok (decide (turn r = me), cache')

/-! ### One turn a round -/

variable {env tx} {validatorsArr : List StakerID} {weights : List Stake} {perm : List ℕ}

/-- The turn goes round the shuffled validators. -/
lemma isMyTxTurn_eq (h : Shuffles env.sha256 weights (tx.turnHash env) perm)
    (hlen : validatorsArr.length = weights.length) {C : Cache HashBytes env.Time} {cache : C.State}
    {now : env.Time} {r : ℕ} (hr : tx.round env C cache now = r) {turn : ℕ} {v : StakerID}
    (hpos : 0 < weights.length) (hturn : perm[r % weights.length]? = some turn)
    (hv : validatorsArr[turn]? = some v) (me : StakerID) :
    tx.isMyTxTurn env C cache now validatorsArr weights me =
      .ok (decide (v = me), (tx.txTime env C cache now).2) := by
  have hne : validatorsArr.length ≠ 0 := by omega
  have hmod : r % weights.length < weights.length := Nat.mod_lt _ hpos
  have hround : ((env.sub now (tx.txTime env C cache now).1).tdiv txTurnPeriod).tmod
      validatorsArr.length = ((r % weights.length : ℕ) : ℤ) := by
    rw [← round, hr, hlen]
    rfl
  have htake : (perm.take (r % weights.length + 1))[r % weights.length]? = some turn := by
    rw [List.getElem?_take_of_lt (Nat.lt_succ_self _), hturn]
  simp only [isMyTxTurn, if_neg hne, hround, Int.toNat_natCast,
    h.eq_take _ (Nat.succ_le_of_lt hmod), bind, Except.bind, htake, hv]
  rw [if_neg (by omega)]
  rfl

lemma existsUnique_mod_eq {n q : ℕ} (hq : q < n) (r₀ : ℕ) :
    ∃! r, r₀ ≤ r ∧ r < r₀ + n ∧ r % n = q := by
  have hlt : r₀ % n < n := Nat.mod_lt _ (Nat.zero_lt_of_lt hq)
  have hdiv := Nat.div_add_mod r₀ n
  have hunique : ∀ r r' : ℕ, r₀ ≤ r → r ≤ r' → r' < r₀ + n → r % n = r' % n → r = r' := by
    intro r r' hle hrr' hlt' hmod
    have hzero : r' - r = 0 := by
      apply Nat.eq_zero_of_dvd_of_lt _ (show r' - r < n by omega)
      exact (Nat.modEq_iff_dvd' hrr').mp hmod
    omega
  obtain ⟨r, hle, hlt', hmod⟩ : ∃ r, r₀ ≤ r ∧ r < r₀ + n ∧ r % n = q := by
    by_cases hcase : r₀ % n ≤ q
    · refine ⟨n * (r₀ / n) + q, by omega, by omega, ?_⟩
      rw [Nat.mul_add_mod, Nat.mod_eq_of_lt hq]
    · refine ⟨n * (r₀ / n + 1) + q, ?_, ?_, ?_⟩
      · rw [Nat.mul_add, Nat.mul_one]
        omega
      · rw [Nat.mul_add, Nat.mul_one]
        omega
      · rw [Nat.mul_add_mod, Nat.mod_eq_of_lt hq]
  refine ⟨r, ⟨hle, hlt', hmod⟩, ?_⟩
  rintro r' ⟨hle', hlt'', hmod'⟩
  rcases Nat.le_total r r' with hrr' | hrr'
  · exact (hunique r r' hle hrr' hlt'' (hmod.trans hmod'.symm)).symm
  · exact hunique r' r hle' hrr' hlt' (hmod'.trans hmod.symm)

/-- In as many rounds as there are validators each has one turn. -/
lemma exists_turns (h : Shuffles env.sha256 weights (tx.turnHash env) perm)
    (hlen : validatorsArr.length = weights.length) (hpos : 0 < weights.length)
    (hnodup : validatorsArr.Nodup) :
    ∃ turn : ℕ → StakerID, tx.Turns env validatorsArr weights turn ∧
      (∀ r, turn r ∈ validatorsArr) ∧
      ∀ v ∈ validatorsArr, ∀ r₀, ∃! r, r₀ ≤ r ∧ r < r₀ + validatorsArr.length ∧ turn r = v := by
  have hpermLen : perm.length = weights.length := by
    rw [h.perm_range.length_eq, List.length_range]
  have hpermNodup : perm.Nodup := h.perm_range.nodup_iff.mpr List.nodup_range
  -- the index that is drawn for a round, and the validator with this index
  have hindex : ∀ r, ∃ i v, perm[r % weights.length]? = some i ∧ validatorsArr[i]? = some v := by
    intro r
    have hmod : r % weights.length < perm.length := by
      rw [hpermLen]
      exact Nat.mod_lt _ hpos
    have hmem : perm[r % weights.length] ∈ List.range weights.length :=
      h.perm_range.mem_iff.mp (List.getElem_mem hmod)
    have hlt : perm[r % weights.length] < validatorsArr.length := by
      rw [hlen]
      exact List.mem_range.mp hmem
    exact ⟨_, _, List.getElem?_eq_getElem hmod, List.getElem?_eq_getElem hlt⟩
  choose index turn hperm hturn using hindex
  refine ⟨turn, ?_, fun r => List.mem_of_getElem? (hturn r), ?_⟩
  · intro C cache now r hr me
    exact ⟨_, isMyTxTurn_eq h hlen hr hpos (hperm r) (hturn r) me⟩
  · intro v hv r₀
    obtain ⟨i, hi, hiv⟩ := List.getElem_of_mem hv
    have hiperm : i ∈ perm := h.perm_range.mem_iff.mpr (List.mem_range.mpr (hlen ▸ hi))
    obtain ⟨q, hq, hqi⟩ := List.getElem_of_mem hiperm
    have hiff : ∀ r, turn r = v ↔ r % weights.length = q := by
      intro r
      have hget : validatorsArr[i]? = some v := by rw [List.getElem?_eq_getElem hi, hiv]
      have hdraw : perm[q]? = some i := by rw [List.getElem?_eq_getElem hq, hqi]
      constructor
      · intro hrv
        have hsame : index r = i := by
          apply (List.getElem?_inj (List.getElem?_eq_some_iff.mp (hturn r)).1 hnodup).mp
          rw [hturn r, hget, hrv]
        apply (List.getElem?_inj (List.getElem?_eq_some_iff.mp (hperm r)).1 hpermNodup).mp
        rw [hperm r, hdraw, hsame]
      · intro hrq
        have hsame : index r = i := by
          apply Option.some.inj
          rw [← hperm r, hrq, hdraw]
        apply Option.some.inj
        rw [← hturn r, hsame, hget]
    simp only [hiff, hlen]
    exact existsUnique_mod_eq (hpermLen ▸ hq) r₀

/-- With positive weights whose sum fits into 64 bits, permutations of all sizes are drawn without a
panic and are the beginnings of one order, and of the validators in this order each has one round of
as many as there are validators. -/
theorem turns_fair (env : TurnEnv) (weights : List Stake) (hpos : ∀ x ∈ weights, 0 < x)
    (hsum : (weights.map UInt64.toNat).sum < 2 ^ 64) :
    (∀ seed, ∃ perm, Shuffles env.sha256 weights seed perm) ∧
    ∀ (tx : TurnTx) (validatorsArr : List StakerID), validatorsArr.length = weights.length →
      validatorsArr ≠ [] → validatorsArr.Nodup →
      ∃ turn : ℕ → StakerID, tx.Turns env validatorsArr weights turn ∧
        (∀ r, turn r ∈ validatorsArr) ∧
        ∀ v ∈ validatorsArr, ∀ r₀, ∃! r, r₀ ≤ r ∧ r < r₀ + validatorsArr.length ∧ turn r = v := by
  refine ⟨fun seed => exists_shuffles env.sha256 seed hpos hsum, ?_⟩
  intro tx validatorsArr hlen hne hnodup
  obtain ⟨perm, hperm⟩ := exists_shuffles env.sha256 (tx.turnHash env) hpos hsum
  exact exists_turns hperm hlen (hlen ▸ List.length_pos_iff.mpr hne) hnodup

/-- Hashes that are not random at all. -/
def plainEnv : TurnEnv where
  Time := ℤ
  sub a b := a - b
  hashOf _ := ⟨List.replicate 32 7, rfl⟩
  sha256 bs := HashBytes.setBytes (bs.map (· + 1))

theorem turns_fair_three : ∃ turn : ℕ → StakerID,
    (⟨.zero, [], 0, 1⟩ : TurnTx).Turns plainEnv [11, 12, 13] [5, 1, 3] turn ∧
    ∃! r, 4 ≤ r ∧ r < 4 + 3 ∧ turn r = 12 := by
  have hpos : ∀ x ∈ ([5, 1, 3] : List Stake), 0 < x := by simp
  obtain ⟨turn, hturns, -, hone⟩ := (turns_fair plainEnv [5, 1, 3] hpos (by decide +kernel)).2
    ⟨.zero, [], 0, 1⟩ [11, 12, 13] rfl (by decide) (by decide)
  exact ⟨turn, hturns, hone 12 (by decide) 4⟩

/-- The draws with these hashes. -/
example : weightedPermutation plainEnv.sha256 3 [5, 1, 3] ⟨List.replicate 32 7, rfl⟩ =
    .ok [1, 2, 0] := by decide +kernel

end TurnTx

end Lachesis
