import Lachesis.Core.Rlp
import Lachesis.Inter.Pos

/-!
# Building validators

The builder is a map, and its entries are met in any order. `newValidators` copies it without zero
stakes, sorts the entries and fills its caches from the sorted array. The result depends on the map
alone: it is the sorted array that `Validators` is.
-/

namespace Lachesis

open Std Lachesis.Core

/-- `pos.ValidatorsBuilder` -/
abbrev ValidatorsBuilder := ExtTreeMap StakerID Stake

namespace ValidatorsBuilder

def set (vv : ValidatorsBuilder) (id : StakerID) (stake : Stake) : ValidatorsBuilder :=
  if stake = 0 then vv.erase id else vv.insert id stake

/-- A loop that sets the stake of each entry. -/
def setAll (vv : ValidatorsBuilder) (entries : List Validator) : ValidatorsBuilder :=
  entries.foldl (fun vv v => vv.set v.id v.stake) vv

/-- The entries, in the order of the ids. -/
def entries (vv : ValidatorsBuilder) : List Validator := vv.toList.map fun p => ⟨p.1, p.2⟩

/-- A `range` over the map meets each entry once, in any order. -/
def Ranges (vv : ValidatorsBuilder) (order : List Validator) : Prop := order.Perm vv.entries

end ValidatorsBuilder

/-- `pos.cache` -/
@[ext]
structure ValidatorsCache where
  indexes : ExtTreeMap StakerID ℕ
  stakes : List Stake
  ids : List StakerID
  totalStake : Stake

/-- `pos.Validators`, with the map and the caches of the code. -/
@[ext]
structure CachedValidators where
  values : ValidatorsBuilder
  cache : ValidatorsCache

/-- Not behind the other in the order of `validators.Less`. -/
def Validator.notAfter (a b : Validator) : Prop := ¬ b.less a

instance (a b : Validator) : Decidable (a.notAfter b) := inferInstanceAs (Decidable (¬ _))

/-- `Validators.sortedArray`, with the order in which the map is met. -/
def sortedArray (order : List Validator) : List Validator := order.insertionSort Validator.notAfter

namespace ValidatorsCache

/-- A round of the loop of `calcCaches`. -/
def put (c : ValidatorsCache) (i : ℕ) (v : Validator) : ValidatorsCache where
  indexes := c.indexes.insert v.id i
  stakes := c.stakes.set i v.stake
  ids := c.ids.set i v.id
  totalStake := c.totalStake + v.stake

/-- The loop of `calcCaches`, at the validator with index `i`. -/
def fill : ℕ → List Validator → ValidatorsCache → ValidatorsCache
  | _, [], c => c
  | i, v :: array, c => fill (i + 1) array (c.put i v)

/-- `Validators.calcCaches` for `len` validators. -/
def calcCaches (len : ℕ) (array : List Validator) : ValidatorsCache :=
  fill 0 array ⟨∅, List.replicate len 0, List.replicate len 0, 0⟩

end ValidatorsCache

/-- `newValidators`, with the orders in which its loops meet the maps. -/
def newValidators (copyOrder sortOrder : List Validator) : CachedValidators :=
  let values := ValidatorsBuilder.setAll ∅ copyOrder
  { values, cache := .calcCaches values.size (sortedArray sortOrder) }

/-- What `newValidators` can make of a map. -/
def NewValidators (values : ValidatorsBuilder) (vv : CachedValidators) : Prop :=
  ∃ copyOrder sortOrder, values.Ranges copyOrder ∧
    (ValidatorsBuilder.setAll ∅ copyOrder).Ranges sortOrder ∧ vv = newValidators copyOrder sortOrder

/-! ### The sorted array -/

namespace Validator

variable {a b c : Validator}

lemma less_iff : a.less b ↔ b.stake < a.stake ∨ (a.stake = b.stake ∧ a.id < b.id) := by
  unfold less
  split_ifs with h
  · simp [h]
  · simp only [not_not] at h
    simp [h]

lemma notAfter_iff : a.notAfter b ↔ b.stake < a.stake ∨ (a.stake = b.stake ∧ a.id ≤ b.id) := by
  rw [notAfter, less_iff]
  grind

instance : Std.Total Validator.notAfter where
  total a b := by
    rw [notAfter_iff, notAfter_iff]
    grind

instance : IsTrans Validator Validator.notAfter where
  trans a b c := by
    rw [notAfter_iff, notAfter_iff, notAfter_iff]
    grind

lemma eq_of_notAfter (hab : a.notAfter b) (hba : b.notAfter a) : a = b := by
  rw [notAfter_iff] at hab hba
  cases a
  cases b
  grind

lemma less_of_notAfter (h : a.notAfter b) (hne : a.id ≠ b.id) : a.less b := by
  rw [notAfter_iff] at h
  rw [less_iff]
  rcases h with hstake | ⟨hstake, hid⟩
  · exact Or.inl hstake
  · exact Or.inr ⟨hstake, Nat.lt_of_le_of_ne hid hne⟩

lemma notAfter_of_less (h : a.less b) : a.notAfter b := by
  rw [less_iff] at h
  rw [notAfter_iff]
  exact h.imp_right fun h => ⟨h.1, h.2.le⟩

end Validator

section Sorted

variable {order order' : List Validator}

lemma perm_sortedArray (order : List Validator) : (sortedArray order).Perm order :=
  List.perm_insertionSort _ _

/-- The order of the map does not show in the sorted array. -/
lemma sortedArray_congr (h : order.Perm order') : sortedArray order = sortedArray order' := by
  have hperm : (sortedArray order).Perm (sortedArray order') :=
    ((perm_sortedArray order).trans h).trans (perm_sortedArray order').symm
  exact hperm.eq_of_pairwise (fun _ _ _ _ => Validator.eq_of_notAfter)
    (List.pairwise_insertionSort _ _) (List.pairwise_insertionSort _ _)

lemma pairwise_less_sortedArray (h : (order.map (·.id)).Nodup) :
    (sortedArray order).Pairwise fun a b => a.less b := by
  have hids : ((sortedArray order).map (·.id)).Nodup :=
    (((perm_sortedArray order).map _).nodup_iff).mpr h
  exact (List.pairwise_insertionSort Validator.notAfter order).imp₂
    (fun _ _ h hne => Validator.less_of_notAfter h hne) (List.pairwise_map.mp hids)

lemma eq_sortedArray_iff (h : (order.map (·.id)).Nodup) {l : List Validator} :
    l = sortedArray order ↔ l.Perm order ∧ l.Pairwise fun a b => a.less b := by
  constructor
  · rintro rfl
    exact ⟨perm_sortedArray order, pairwise_less_sortedArray h⟩
  · rintro ⟨hperm, hless⟩
    exact (hperm.trans (perm_sortedArray order).symm).eq_of_pairwise
      (fun _ _ _ _ => Validator.eq_of_notAfter) (hless.imp Validator.notAfter_of_less)
      (List.pairwise_insertionSort _ _)

end Sorted

/-! ### The copy of the map -/

namespace ValidatorsBuilder

variable {vv values : ValidatorsBuilder} {order : List Validator} {id : StakerID} {stake : Stake}

lemma mem_entries {v : Validator} : v ∈ vv.entries ↔ vv[v.id]? = some v.stake := by
  rw [entries, List.mem_map, ← ExtTreeMap.mem_toList_iff_getElem?_eq_some]
  constructor
  · rintro ⟨p, hp, rfl⟩
    exact hp
  · intro hv
    exact ⟨_, hv, rfl⟩

lemma nodup_ids_entries (vv : ValidatorsBuilder) : (vv.entries.map (·.id)).Nodup := by
  rw [entries, List.map_map, show (Validator.id ∘ fun p : StakerID × Stake => ⟨p.1, p.2⟩) =
    Prod.fst from rfl, ExtTreeMap.map_fst_toList_eq_keys]
  exact ExtTreeMap.nodup_keys

lemma Ranges.nodup_ids (h : vv.Ranges order) : (order.map (·.id)).Nodup :=
  ((h.map _).nodup_iff).mpr vv.nodup_ids_entries

lemma Ranges.mem_iff (h : vv.Ranges order) {v : Validator} :
    v ∈ order ↔ vv[v.id]? = some v.stake := by
  rw [List.Perm.mem_iff h, mem_entries]

lemma Ranges.length (h : vv.Ranges order) : order.length = vv.size := by
  rw [List.Perm.length_eq h, entries, List.length_map, ExtTreeMap.length_toList]

lemma getElem?_set (vv : ValidatorsBuilder) (id a : StakerID) (stake : Stake) :
    (vv.set id stake)[a]? = if id = a then (if stake = 0 then none else some stake) else vv[a]? := by
  unfold set
  split_ifs with hzero ha <;> simp [ExtTreeMap.getElem?_erase, ExtTreeMap.getElem?_insert, *]

lemma getElem?_setAll (h : (order.map (·.id)).Nodup) :
    (vv.setAll order)[id]? = some stake ↔
      (⟨id, stake⟩ ∈ order ∧ stake ≠ 0) ∨ (id ∉ order.map (·.id) ∧ vv[id]? = some stake) := by
  induction order generalizing vv with
  | nil => simp [setAll]
  | cons v order ih =>
    rw [List.map_cons, List.nodup_cons] at h
    have hstep : vv.setAll (v :: order) = (vv.set v.id v.stake).setAll order := rfl
    rw [hstep, ih h.2, getElem?_set]
    by_cases hv : v.id = id
    · subst hv
      have hnot : (⟨v.id, stake⟩ : Validator) ∉ order := fun hmem =>
        h.1 (List.mem_map.mpr ⟨_, hmem, rfl⟩)
      have hhead : (⟨v.id, stake⟩ : Validator) = v ↔ v.stake = stake := by
        cases v
        simp [eq_comm]
      by_cases hzero : v.stake = 0
      · simp [hnot, h.1, hhead, hzero, eq_comm]
      · have hne : v.stake = stake → stake ≠ 0 := fun heq => heq ▸ hzero
        simpa [hnot, h.1, hhead, hzero] using hne
    · have hne : (⟨id, stake⟩ : Validator) ≠ v := by
        rintro rfl
        exact hv rfl
      simp [hv, hne, Ne.symm hv]

lemma Ranges.getElem?_setAll (h : values.Ranges order) :
    (setAll ∅ order)[id]? = some stake ↔ values[id]? = some stake ∧ stake ≠ 0 := by
  rw [ValidatorsBuilder.getElem?_setAll h.nodup_ids, h.mem_iff]
  simp

lemma setAll_congr {order' : List Validator} (h : values.Ranges order)
    (h' : values.Ranges order') : setAll ∅ order = setAll ∅ order' := by
  apply ExtTreeMap.ext_getElem?
  intro id
  apply Option.ext
  intro stake
  simp only [h.getElem?_setAll, h'.getElem?_setAll]

/-- What `newValidators` makes of a map. -/
def build (values : ValidatorsBuilder) : CachedValidators :=
  let copy := setAll ∅ values.entries
  newValidators values.entries copy.entries

lemma ranges_entries (vv : ValidatorsBuilder) : vv.Ranges vv.entries := List.Perm.refl _

/-- The order in which the maps are met does not show at all. -/
lemma newValidators_iff {vv : CachedValidators} : NewValidators values vv ↔ vv = values.build := by
  constructor
  · rintro ⟨copyOrder, sortOrder, hcopy, hsort, rfl⟩
    rw [setAll_congr hcopy values.ranges_entries] at hsort
    rw [newValidators, setAll_congr hcopy values.ranges_entries, sortedArray_congr hsort]
    rfl
  · rintro rfl
    exact ⟨_, _, ranges_entries _, ranges_entries _, rfl⟩

/-- The copy of the map, without zero stakes. -/
def copy (values : ValidatorsBuilder) : ValidatorsBuilder := setAll ∅ values.entries

lemma getElem?_copy : values.copy[id]? = some stake ↔ values[id]? = some stake ∧ stake ≠ 0 :=
  values.ranges_entries.getElem?_setAll

lemma copy_copy (values : ValidatorsBuilder) : values.copy.copy = values.copy := by
  apply ExtTreeMap.ext_getElem?
  intro id
  apply Option.ext
  intro stake
  simp only [getElem?_copy, and_assoc, and_self]

/-- The sorted array of a map. -/
def validators (values : ValidatorsBuilder) : Validators where
  sorted := sortedArray values.copy.entries
  pairwise_less := pairwise_less_sortedArray (nodup_ids_entries _)
  nodup_ids := (((perm_sortedArray _).map _).nodup_iff).mpr (nodup_ids_entries _)
  stake_ne_zero v hv := by
    rw [(perm_sortedArray _).mem_iff, mem_entries, getElem?_copy] at hv
    exact hv.2

lemma mem_sorted_validators {v : Validator} :
    v ∈ values.validators.sorted ↔ values[v.id]? = some v.stake ∧ v.stake ≠ 0 := by
  rw [validators, (perm_sortedArray _).mem_iff, mem_entries, getElem?_copy]

lemma ranges_sorted (values : ValidatorsBuilder) : values.copy.Ranges values.validators.sorted :=
  perm_sortedArray _

end ValidatorsBuilder

/-! ### The caches -/

namespace ValidatorsCache

variable {array l : List Validator} {i : ℕ} {c : ValidatorsCache}

lemma set_append_replicate {α : Type*} {as : List α} {i n : ℕ} (hi : as.length = i) (a b : α) :
    (as ++ List.replicate (n + 1) b).set i a = as ++ [a] ++ List.replicate n b := by
  rw [List.set_append_right _ _ hi.le, hi, Nat.sub_self, List.replicate_succ, List.set_cons_zero,
    List.append_assoc, List.singleton_append]

lemma array_fill {α : Type*} {get : ValidatorsCache → List α} {f : Validator → α} {b : α}
    (hput : ∀ c i v, get (put c i v) = (get c).set i (f v)) (hi : l.length = i)
    (hc : get c = l.map f ++ List.replicate array.length b) :
    get (fill i array c) = (l ++ array).map f := by
  induction array generalizing i l c with
  | nil => simpa [fill] using hc
  | cons v array ih =>
    have hnext : get (c.put i v) = (l ++ [v]).map f ++ List.replicate array.length b := by
      rw [hput, hc, List.length_cons, set_append_replicate (by simpa using hi), List.map_append,
        List.map_singleton]
    rw [fill, ih (by simpa using hi) hnext, List.append_assoc, List.singleton_append]

lemma totalStake_fill :
    (fill i array c).totalStake = (array.map (·.stake)).foldl (· + ·) c.totalStake := by
  induction array generalizing i c with
  | nil => rfl
  | cons v array ih =>
    rw [fill, ih, List.map_cons, List.foldl_cons]
    rfl

/-- An index is the position in the sorted array. -/
lemma indexes_fill (hi : l.length = i) (hids : ((l ++ array).map (·.id)).Nodup)
    (hc : ∀ (id : StakerID) (k : ℕ), c.indexes[id]? = some k ↔ (l.map (·.id))[k]? = some id)
    (id : StakerID) (k : ℕ) : (fill i array c).indexes[id]? = some k ↔
      ((l ++ array).map (·.id))[k]? = some id := by
  induction array generalizing i l c with
  | nil => simpa [fill] using hc id k
  | cons v array ih =>
    have happ : l ++ v :: array = (l ++ [v]) ++ array := by simp
    rw [happ] at hids ⊢
    refine ih (by simpa using hi) hids ?_
    intro id k
    have hnew : v.id ∉ l.map (·.id) := by
      rw [List.map_append, List.map_append] at hids
      have hdisj := List.nodup_append.mp (List.nodup_append.mp hids).1
      exact fun hmem => hdisj.2.2 _ hmem v.id (by simp) rfl
    rw [put, ExtTreeMap.getElem?_insert, List.map_append, List.map_singleton]
    by_cases hid : v.id = id
    · subst hid
      simp only [LawfulEqCmp.compare_eq_iff_eq, if_true, Option.some.injEq]
      constructor
      · rintro rfl
        rw [List.getElem?_append_right (by simp [hi]), List.length_map, hi, Nat.sub_self]
        rfl
      · intro hk
        rcases Nat.lt_or_ge k (l.map (·.id)).length with hlt | hge
        · rw [List.getElem?_append_left hlt] at hk
          exact absurd (List.mem_of_getElem? hk) hnew
        · have hlen := (List.getElem?_eq_some_iff.mp hk).1
          simp only [List.length_append, List.length_map, List.length_singleton] at hlen hge
          omega
    · rw [if_neg (by simpa using hid), hc]
      rcases Nat.lt_or_ge k (l.map (·.id)).length with hlt | hge
      · rw [List.getElem?_append_left hlt]
      · rw [List.getElem?_append_right hge, List.getElem?_eq_none hge]
        cases hsub : k - (l.map (·.id)).length with
        | zero => simpa using hid
        | succ n => simp

end ValidatorsCache

/-- The map and the caches are those of the sorted array, so they agree with each other. -/
structure CachedValidators.Represents (vv : CachedValidators) (V : Validators) : Prop where
  values : ∀ v : Validator, vv.values[v.id]? = some v.stake ↔ v ∈ V.sorted
  ids : vv.cache.ids = V.ids
  stakes : vv.cache.stakes = V.stakes
  indexes : ∀ (id : StakerID) (i : ℕ), vv.cache.indexes[id]? = some i ↔ V.ids[i]? = some id
  totalStake : vv.cache.totalStake = V.totalStake

namespace ValidatorsBuilder

variable {values : ValidatorsBuilder}

lemma values_build (values : ValidatorsBuilder) : values.build.values = values.copy := rfl

/-- What is built represents the entries of the map. -/
lemma represents_build (values : ValidatorsBuilder) :
    values.build.Represents values.validators := by
  have hlen : values.copy.size = values.validators.sorted.length :=
    values.ranges_sorted.length.symm
  have hcache : values.build.cache =
      .calcCaches values.copy.size values.validators.sorted := rfl
  constructor
  · intro v
    rw [values_build, getElem?_copy, mem_sorted_validators]
  · rw [hcache, hlen]
    exact ValidatorsCache.array_fill (l := []) (fun _ _ _ => rfl) rfl rfl
  · rw [hcache, hlen]
    exact ValidatorsCache.array_fill (l := []) (fun _ _ _ => rfl) rfl rfl
  · rw [hcache]
    exact ValidatorsCache.indexes_fill (l := []) rfl values.validators.nodup_ids (by simp)
  · rw [hcache]
    exact ValidatorsCache.totalStake_fill

lemma build_copy (values : ValidatorsBuilder) : values.copy.build = values.build := by
  have hvalues : values.copy.build.values = values.build.values := copy_copy values
  have hcache : values.copy.build.cache =
      .calcCaches values.copy.copy.size (sortedArray values.copy.copy.entries) := rfl
  rw [copy_copy] at hcache
  exact CachedValidators.ext hvalues hcache

lemma total_validators_le (values : ValidatorsBuilder) :
    values.validators.total ≤ (values.entries.map fun v => v.stake.toNat).sum := by
  have hsorted : values.validators.total =
      (values.validators.sorted.map fun v => v.stake.toNat).sum := by
    rw [Validators.total, weight, Validators.members, List.sum_toFinset _ values.validators.nodup,
      Validators.ids, List.map_map]
    apply congrArg List.sum
    apply List.map_congr_left
    intro v hv
    simp only [Function.comp, Validators.stakeOf, Validators.get_id hv]
  have hsub : values.validators.sorted.Subperm values.entries := by
    apply List.Nodup.subperm
    · exact List.Nodup.of_map _ values.validators.nodup_ids
    · intro v hv
      exact mem_entries.mpr (mem_sorted_validators.mp hv).1
  obtain ⟨l, hperm, hsublist⟩ := hsub
  rw [hsorted, ← (hperm.map _).sum_eq]
  exact sum_map_le_of_sublist hsublist _

end ValidatorsBuilder

/-! ### Written as bytes -/

/-- What the RLP encoding of an array of validators gives back. -/
structure ValidatorsCodec where
  encode : List Validator → List UInt8
  decode : List UInt8 → Option (List Validator)
  decode_encode : ∀ array : List Validator, (∀ v ∈ array, v.id < 2 ^ 32) →
    array.length ≤ 2 ^ 32 → decode (encode array) = some array

namespace ValidatorsCodec

variable (codec : ValidatorsCodec)

/-- What `Validators.EncodeRLP` can write. -/
def EncodeRLP (vv : CachedValidators) (bs : List UInt8) : Prop :=
  ∃ order, vv.values.Ranges order ∧ bs = codec.encode (sortedArray order)

/-- What `Validators.DecodeRLP` can read. -/
def DecodeRLP (bs : List UInt8) (vv : CachedValidators) : Prop :=
  ∃ array, codec.decode bs = some array ∧ NewValidators (.setAll ∅ array) vv

variable {codec} {values : ValidatorsBuilder}

lemma length_sorted_le (hids : ∀ id ∈ values, id < 2 ^ 32) :
    values.validators.sorted.length ≤ 2 ^ 32 := by
  have hsub : values.validators.members ⊆ Finset.range (2 ^ 32) := by
    intro id hid
    obtain ⟨v, hv, rfl⟩ := List.mem_map.mp (Validators.mem_members.mp hid)
    rw [Finset.mem_range]
    apply hids
    rw [ExtTreeMap.mem_iff_isSome_getElem?,
      (ValidatorsBuilder.mem_sorted_validators.mp hv).1]
    rfl
  have hcard := Finset.card_le_card hsub
  rw [Validators.members, List.toFinset_card_of_nodup values.validators.nodup,
    Finset.card_range] at hcard
  simpa [Validators.ids] using hcard

lemma decode_of_encodeRLP (hids : ∀ id ∈ values, id < 2 ^ 32) {bs : List UInt8}
    (h : codec.EncodeRLP values.build bs) :
    codec.decode bs = some values.validators.sorted := by
  obtain ⟨order, horder, rfl⟩ := h
  rw [sortedArray_congr horder]
  apply codec.decode_encode
  · intro v hv
    apply hids
    rw [ExtTreeMap.mem_iff_isSome_getElem?, (ValidatorsBuilder.mem_sorted_validators.mp hv).1]
    rfl
  · exact length_sorted_le hids

lemma decodeRLP_iff (hids : ∀ id ∈ values, id < 2 ^ 32) {bs : List UInt8}
    (h : codec.EncodeRLP values.build bs) {vv : CachedValidators} :
    codec.DecodeRLP bs vv ↔ vv = values.build := by
  have hset : ValidatorsBuilder.setAll ∅ values.validators.sorted = values.copy.copy :=
    ValidatorsBuilder.setAll_congr values.ranges_sorted (ValidatorsBuilder.ranges_entries _)
  simp only [DecodeRLP, decode_of_encodeRLP hids h, Option.some.injEq, exists_eq_left', hset,
    ValidatorsBuilder.newValidators_iff, ValidatorsBuilder.build_copy]

end ValidatorsCodec

/-! ### Calls of the counter -/

/-- A call that counts a validator, by id or by index. -/
inductive CountCall
  | count (id : StakerID)
  | countByIdx (i : ℕ)

namespace CountCall

/-- What the call does to the counter. -/
def run (c : StakeCounter) : CountCall → Except Fault (Bool × StakeCounter)
  | count id => c.count id
  | countByIdx i => c.countByIdx i

def runAll (c : StakeCounter) : List CountCall → Except Fault StakeCounter
  | [] => .ok c
  | call :: calls => do
    let r ← call.run c
    runAll r.2 calls

/-- The validator that the call names, if it names one. -/
def validator (V : Validators) : CountCall → Option StakerID
  | count id => if id ∈ V.ids then some id else none
  | countByIdx i => V.ids[i]?

variable {V : Validators} {S : Finset StakerID} {c : StakeCounter} {v : StakerID}

lemma run_eq_ok {call : CountCall} (h : c.Counted V S) (hv : call.validator V = some v) :
    ∃ c', call.run c = .ok (decide (v ∉ S), c') ∧ c'.Counted V (insert v S) := by
  cases call with
  | count id =>
    simp only [validator, Option.ite_none_right_eq_some, Option.some.injEq] at hv
    obtain ⟨hid, rfl⟩ := hv
    exact h.count (Validators.mem_members.mpr hid)
  | countByIdx i =>
    obtain ⟨hmem, rfl⟩ := Validators.getIdx_of_ids hv
    exact h.countByIdx hmem

lemma exists_runAll_eq_ok {calls : List CountCall} (h : c.Counted V S)
    (hcalls : ∀ call ∈ calls, (call.validator V).isSome) :
    ∃ c', runAll c calls = .ok c' ∧
      c'.Counted V (S ∪ (calls.filterMap (validator V)).toFinset) := by
  induction calls generalizing c S with
  | nil => exact ⟨c, rfl, by simpa using h⟩
  | cons call calls ih =>
    obtain ⟨v, hv⟩ := Option.isSome_iff_exists.mp (hcalls call (by simp))
    obtain ⟨c₁, hrun, hc₁⟩ := run_eq_ok h hv
    obtain ⟨c', hrest, hc'⟩ := ih hc₁ fun call' hmem => hcalls call' (List.mem_cons_of_mem _ hmem)
    refine ⟨c', ?_, ?_⟩
    · rw [runAll, hrun]
      exact hrest
    · rwa [List.filterMap_cons_some hv, List.toFinset_cons, Finset.union_insert,
        ← Finset.insert_union]

end CountCall

/-! ### Stakes and quorums -/

namespace ValidatorsBuilder

/-- Whatever the order in which a map of stakes is met, its validators are the one array sorted by
stake and id, with caches that agree with it and that a copy and the encoding give back. A counter
sums the stakes of the validators it counts exactly; two quorums share more than a third of the
stake, and two sets outside of quorums do not make one. -/
theorem stakes_exact (codec : ValidatorsCodec) (values : ValidatorsBuilder)
    (hids : ∀ id ∈ values, id < 2 ^ 32)
    (hsum : (values.entries.map fun v => v.stake.toNat).sum < 2 ^ 63) :
    ∃ V : Validators,
      (∀ l : List Validator, l = V.sorted ↔
        l.Perm (values.entries.filter (·.stake ≠ 0)) ∧ l.Pairwise fun a b => a.less b) ∧
      (∃ vv, NewValidators values vv) ∧
      (∀ vv, NewValidators values vv → vv.Represents V ∧
        (∀ vv', NewValidators vv.values vv' ↔ vv' = vv) ∧
        ∀ bs, codec.EncodeRLP vv bs → ∀ vv', codec.DecodeRLP bs vv' ↔ vv' = vv) ∧
      (∀ calls : List CountCall, (∀ call ∈ calls, (call.validator V).isSome) →
        ∃ c, CountCall.runAll V.newCounter calls = .ok c ∧
          c.sum.toNat = weight V.stakeOf (calls.filterMap (CountCall.validator V)).toFinset ∧
          (c.hasQuorum = true ↔ V.quorum ≤ c.sum)) ∧
      V.totalStake.toNat = weight V.stakeOf V.members ∧
      (∀ s ⊆ V.members, ∀ t ⊆ V.members, V.quorum.toNat ≤ weight V.stakeOf s →
        V.quorum.toNat ≤ weight V.stakeOf t →
        2 * V.quorum.toNat ≤ weight V.stakeOf (s ∩ t) + V.totalStake.toNat) ∧
      V.totalStake.toNat < 3 * (2 * V.quorum.toNat - V.totalStake.toNat) ∧
      ∀ s ⊆ V.members, ∀ t ⊆ V.members, weight V.stakeOf s + V.quorum.toNat ≤ V.totalStake.toNat →
        weight V.stakeOf t + V.quorum.toNat ≤ V.totalStake.toNat →
        weight V.stakeOf (s ∪ t) < V.quorum.toNat := by
  have hlt : values.validators.total < 2 ^ 63 := values.total_validators_le.trans_lt hsum
  have htotal := Validators.toNat_totalStake (hlt.trans (by norm_num))
  have hquorum := Validators.supermajority hlt
  refine ⟨values.validators, ?_, ⟨_, newValidators_iff.mpr rfl⟩, ?_, ?_, htotal, ?_, ?_, ?_⟩
  · intro l
    have hperm : (values.entries.filter (·.stake ≠ 0)).Perm values.copy.entries := by
      rw [List.perm_ext_iff_of_nodup]
      · intro v
        simp [mem_entries, getElem?_copy]
      · exact (List.Nodup.of_map _ values.nodup_ids_entries).filter _
      · exact List.Nodup.of_map _ (nodup_ids_entries _)
    rw [validators, eq_sortedArray_iff (nodup_ids_entries _)]
    exact and_congr_left' ⟨fun h => h.trans hperm.symm, fun h => h.trans hperm⟩
  · intro vv hvv
    obtain rfl := newValidators_iff.mp hvv
    refine ⟨values.represents_build, ?_, fun bs hbs vv' => ValidatorsCodec.decodeRLP_iff hids hbs⟩
    intro vv'
    rw [values_build, newValidators_iff, build_copy]
  · intro calls hcalls
    obtain ⟨c, hrun, hc⟩ := CountCall.exists_runAll_eq_ok
      (StakeCounter.counted_newCounter values.validators) hcalls
    rw [Finset.empty_union] at hc
    refine ⟨c, hrun, hc.toNat_sum (hlt.trans (by norm_num)), ?_⟩
    rw [hc.hasQuorum_iff, hc.sum]
  · intro s hs t ht hqs hqt
    rw [htotal]
    exact two_mul_le_weight_inter_add hs ht hqs hqt
  · rw [htotal]
    omega
  · intro s hs t ht hqs hqt
    have hunion := weight_union_add_inter values.validators.stakeOf s t
    rw [htotal] at hqs hqt
    omega

/-! ### Two validators -/

/-- A validator as a list of its fields. -/
def encodeValidator (v : Validator) : List UInt8 :=
  Rlp.encodeList (Rlp.encodeUint v.id ++ Rlp.encodeUint v.stake.toNat)

/-- A validator, and what follows it. -/
def decodeValidator (bs : List UInt8) : Option (Validator × List UInt8) := do
  let item ← Rlp.decodeList bs
  let id ← Rlp.decodeUint 4 item.1
  let stake ← Rlp.decodeUint 8 id.2
  if stake.2 = [] then some (⟨id.1, UInt64.ofNat stake.1⟩, item.2) else none

lemma length_fields_le (v : Validator) :
    (Rlp.encodeUint v.id ++ Rlp.encodeUint v.stake.toNat).length ≤ 18 := by
  rw [List.length_append]
  exact Nat.add_le_add (Rlp.length_encodeUint_le _) (Rlp.length_encodeUint_le _)

lemma decodeValidator_encodeValidator {v : Validator} (hid : v.id < 2 ^ 32) (rest : List UInt8) :
    decodeValidator (encodeValidator v ++ rest) = some (v, rest) := by
  have hlist := Rlp.decodeList_encodeList ((length_fields_le v).trans_lt (by norm_num)) rest
  have hid' := Rlp.decodeUint_encodeUint (show 0 < 4 by decide) (by decide)
    (hid.trans_eq (by norm_num)) (Rlp.encodeUint v.stake.toNat)
  have hstake := Rlp.decodeUint_encodeUint (show 0 < 8 by decide) le_rfl
    (v.stake.toNat_lt.trans_eq (by norm_num)) []
  rw [List.append_nil] at hstake
  simp [decodeValidator, encodeValidator, hlist, hid', hstake]

lemma length_encodeValidator_le (v : Validator) : (encodeValidator v).length ≤ 19 := by
  have hlen := length_fields_le v
  rw [encodeValidator, Rlp.encodeList, if_pos (by omega), List.length_cons]
  omega

lemma length_flatMap_encodeValidator_le (array : List Validator) :
    (array.flatMap encodeValidator).length ≤ array.length * 19 := by
  induction array with
  | nil => simp
  | cons v array ih =>
    have hv := length_encodeValidator_le v
    rw [List.flatMap_cons, List.length_append, List.length_cons]
    omega

lemma encodeValidator_ne_nil (v : Validator) : encodeValidator v ≠ [] := by
  rw [encodeValidator, Rlp.encodeList]
  split_ifs <;> simp

lemma length_le_length_flatMap (array : List Validator) :
    array.length ≤ (array.flatMap encodeValidator).length := by
  induction array with
  | nil => simp
  | cons v array ih =>
    have hv := List.length_pos_iff.mpr (encodeValidator_ne_nil v)
    rw [List.flatMap_cons, List.length_append, List.length_cons]
    omega

/-- The codec of the RLP format. -/
def rlpCodec : ValidatorsCodec where
  encode array := Rlp.encodeList (array.flatMap encodeValidator)
  decode bs := do
    let item ← Rlp.decodeList bs
    Rlp.decodeItems decodeValidator item.1.length item.1
  decode_encode array hids hlen := by
    have hsize : (array.flatMap encodeValidator).length < 256 ^ 8 :=
      (length_flatMap_encodeValidator_le array).trans_lt (by omega)
    have hlist := Rlp.decodeList_encodeList hsize []
    rw [List.append_nil] at hlist
    rw [hlist]
    exact Rlp.decodeItems_flatMap (fun v hv rest => decodeValidator_encodeValidator (hids v hv) rest)
      (fun v _ => encodeValidator_ne_nil v) (length_le_length_flatMap array)

/-- The second validator has twice the stake of the first. -/
def twoStakes : ValidatorsBuilder := (ExtTreeMap.empty.insert 1 5).insert 2 10

/-- An unknown id has the index of the first validator, which is counted in its place. -/
theorem sum_count_stranger :
    3 ∉ twoStakes.validators.ids ∧
      (CountCall.runAll twoStakes.validators.newCounter [.count 3]).toOption.map (·.sum) = some 10 := by
  decide +kernel

theorem stakes_exact_twoStakes :
    ∃ V : Validators, V.sorted = [⟨2, 10⟩, ⟨1, 5⟩] ∧
      rlpCodec.encode V.sorted = [0xc6, 0xc2, 2, 10, 0xc2, 1, 5] ∧
      ∃ c, CountCall.runAll V.newCounter [.count 1, .countByIdx 1, .countByIdx 0] = .ok c ∧
        c.sum.toNat = 15 := by
  have hids : ∀ id ∈ twoStakes, id < 2 ^ 32 := by
    intro id hid
    simp only [twoStakes, ExtTreeMap.mem_insert, LawfulEqCmp.compare_eq_iff_eq] at hid
    rcases hid with rfl | rfl | hid
    · norm_num
    · norm_num
    · exact absurd hid ExtTreeMap.not_mem_empty
  obtain ⟨V, hsorted, -, -, hcount, -⟩ := stakes_exact rlpCodec twoStakes hids (by decide +kernel)
  have hV : [⟨2, 10⟩, ⟨1, 5⟩] = V.sorted := (hsorted _).mpr (by decide +kernel)
  refine ⟨V, hV.symm, by rw [← hV]; decide +kernel, ?_⟩
  obtain ⟨c, hrun, hsum, -⟩ := hcount [.count 1, .countByIdx 1, .countByIdx 0] (by
    simp [CountCall.validator, Validators.ids, ← hV])
  refine ⟨c, hrun, hsum.trans ?_⟩
  simp [CountCall.validator, Validators.ids, ← hV, weight, Validators.stakeOf, Validators.get]

end ValidatorsBuilder

end Lachesis
