import Lachesis.Core.Ring
import Lachesis.Core.Run
import Lachesis.Inter.Event

/-!
# Temporary databases

A few databases with consecutive versions are kept in a ring buffer: `Get` makes the next one, `Del`
closes and drops all up to a version. The gossip store keeps one for each epoch and looks epochs up
in identifiers that peers send.

Versions are `uint64`. The positions in the ring are `int`, with the wrap-around of 64 bits.
-/

namespace Lachesis

open Lachesis.Core

/-- Arithmetic of `int` and conversion to it. -/
def goInt (x : ℤ) : ℤ := x.bmod (2 ^ 64)

/-- `temporary.ringbuf` -/
structure Ringbuf (π : Type) where
  min : UInt64
  offset : ℤ
  count : ℤ
  seq : Fin 5 → Option π

namespace Ringbuf

variable {π : Type}

/-- The ring before the first version. -/
def empty : Ringbuf π := ⟨0, 0, 0, fun _ => none⟩

/-- The index of an array of five elements. -/
def cell (i : ℤ) : Except Fault (Fin 5) :=
  if 0 ≤ i ∧ i < 5 then .ok (Fin.ofNat 5 i.toNat) else .error .indexOutOfRange

def get (num : UInt64) (r : Ringbuf π) : Except Fault (Option π) :=
  let i := goInt (num - r.min).toNat
  if num < r.min ∨ r.count ≤ i then .ok none
  else do
    let j ← cell ((goInt (i + r.offset)).tmod 5)
    return r.seq j

def set (num : UInt64) (val : π) (r : Ringbuf π) : Except Fault (Ringbuf π) :=
  if 5 ≤ r.count then .error .panicked
  else
    let r := if r.count = 0 then { r with min := num } else r
    let i := goInt (num - r.min).toNat
    if i ≠ r.count then .error .panicked
    else do
      let j ← cell ((goInt (i + r.offset)).tmod 5)
      return { r with seq := Function.update r.seq j (some val), count := goInt (r.count + 1) }

def del (num : UInt64) (r : Ringbuf π) : Except Fault (Ringbuf π) :=
  if num ≠ r.min then .error .panicked
  else .ok { r with
    min := r.min + 1
    offset := (goInt (r.offset + 1)).tmod 5
    count := goInt (r.count - 1) }

end Ringbuf

/-- `temporary.pair` -/
structure DbPair (δ τ : Type) where
  db : δ
  tables : τ
  deriving DecidableEq, Repr

/-- `temporary.Dbs`: what the table holds under the key `m`, the ring, how often a database was
made, and the databases that were closed and dropped. -/
structure Dbs (δ τ : Type) where
  stored : Option UInt64
  seq : Ringbuf (DbPair δ τ)
  made : ℕ
  dropped : List δ

namespace Dbs

variable {δ τ : Type}

/-- `loadMin` on a new ring. -/
def loadMin (stored : Option UInt64) : Ringbuf (DbPair δ τ) :=
  match stored with
  | none => .empty
  | some min => { Ringbuf.empty with min }

/-- `NewDbs` over an empty table. -/
def new : Dbs δ τ := ⟨none, loadMin none, 0, []⟩

/-- `NewDbs` over the table of an earlier run. -/
def restart (t : Dbs δ τ) : Dbs δ τ := { t with seq := loadMin t.stored }

/-- `Dbs.Get`; `maker ver n` is what the maker gives for `ver` after `n` calls. -/
def get (maker : UInt64 → ℕ → DbPair δ τ) (ver : UInt64) (t : Dbs δ τ) :
    Except Fault (Option τ × Dbs δ τ) :=
  if ver < t.seq.min then .ok (none, t)
  else do
    match ← t.seq.get ver with
    | some tmp => return (some tmp.tables, t)
    | none =>
      let p := maker ver t.made
      let seq ← t.seq.set ver p
      return (some p.tables, { t with seq, made := t.made + 1 })

/-- The loop of `Del`, which never ends at the highest version. -/
def delLoop (ver : UInt64) : (fuel : ℕ) → (i : UInt64) → Dbs δ τ → Except Fault (Dbs δ τ)
  | 0, _, _ => .error .outOfFuel
  | fuel + 1, i, t =>
    if i ≤ ver then do
      let tmp ← t.seq.get i
      let seq ← t.seq.del i
      delLoop ver fuel (i + 1)
        { t with seq, dropped := t.dropped ++ (tmp.map (·.db)).toList }
    else .ok t

def del (fuel : ℕ) (ver : UInt64) (t : Dbs δ τ) : Except Fault (Dbs δ τ) :=
  if ver < t.seq.min then .ok t
  else do
    let t ← delLoop ver fuel t.seq.min t
    return { t with stored := some t.seq.min }

/-! ### Epoch stores -/

section Stores

variable (maker : UInt64 → ℕ → DbPair δ τ) (has : τ → EventID → Bool)

/-- `Store.getEpochStore` -/
def getEpochStore (epoch : ℕ) (t : Dbs δ τ) : Except Fault (Option τ × Dbs δ τ) :=
  get maker (UInt64.ofNat epoch) t

/-- `Store.HasEventHeader`; `has` looks into the table of headers. -/
def hasEventHeader (h : EventID) (t : Dbs δ τ) : Except Fault (Bool × Dbs δ τ) := do
  let (es, t) ← getEpochStore maker (EventID.epoch h) t
  return (es.any fun es => has es h, t)

/-- `ProtocolManager.onlyNotConnectedEvents` -/
def onlyNotConnectedEvents : List EventID → Dbs δ τ → Except Fault (List EventID × Dbs δ τ)
  | [], t => .ok ([], t)
  | id :: ids, t => do
    let (connected, t) ← hasEventHeader maker has id t
    let (notConnected, t) ← onlyNotConnectedEvents ids t
    return (if connected then notConnected else id :: notConnected, t)

end Stores

end Dbs

/-! ### The ring and the objects it holds -/

lemma goInt_of_range {x : ℤ} (h : -2 ^ 63 ≤ x) (h' : x < 2 ^ 63) : goInt x = x := by
  simp only [goInt, Int.bmod]
  split <;> omega

namespace Ringbuf

variable {π : Type} {r : Ringbuf π} {objs : List π}

/-- The ring holds the objects of the versions from its lowest on. -/
structure Holds (r : Ringbuf π) (objs : List π) : Prop where
  count_eq : r.count = objs.length
  length_le : objs.length ≤ 5
  versions : r.min.toNat + objs.length ≤ 2 ^ 64
  offset_nonneg : 0 ≤ r.offset
  offset_lt : r.offset < 5
  window_eq : window r.seq r.offset.toNat objs.length = objs.map some

lemma holds_loadMin (min : UInt64) : Holds ({ (empty : Ringbuf π) with min }) [] where
  count_eq := rfl
  length_le := by simp
  versions := min.toNat_lt.le
  offset_nonneg := le_rfl
  offset_lt := by simp [empty]
  window_eq := rfl

lemma Holds.cell_eq (h : Holds r objs) {i : ℕ} (hi : i ≤ 5) :
    cell ((goInt (i + r.offset)).tmod 5) = .ok (Fin.ofNat 5 (r.offset.toNat + i)) := by
  have h₀ := h.offset_nonneg
  have h₅ := h.offset_lt
  obtain ⟨k, hk⟩ := Int.eq_ofNat_of_zero_le h₀
  rw [goInt_of_range (by omega) (by omega), hk]
  have hmod : ((i : ℤ) + (k : ℤ)).tmod 5 = (((i + k) % 5 : ℕ) : ℤ) := by
    rw [← Nat.cast_add]
    exact Int.ofNat_tmod (i + k) 5
  rw [hmod, cell, if_pos (by omega)]
  refine congrArg _ (Fin.ext ?_)
  simp only [Int.toNat_natCast, Fin.val_ofNat]
  omega

lemma Holds.get (h : Holds r objs) {num : UInt64} (hle : r.min ≤ num)
    (hfar : num.toNat - r.min.toNat < 2 ^ 63) :
    r.get num = .ok objs[num.toNat - r.min.toNat]? := by
  have hlt : ¬ num < r.min := UInt64.not_lt.mpr hle
  have hlen := h.length_le
  rw [Ringbuf.get, UInt64.toNat_sub_of_le _ _ hle, goInt_of_range (by omega) (by omega), h.count_eq]
  generalize num.toNat - r.min.toNat = i at hfar ⊢
  by_cases hi : objs.length ≤ i
  · rw [if_pos (.inr (by omega)), List.getElem?_eq_none hi]
  · have hnear : ¬ (num < r.min ∨ (objs.length : ℤ) ≤ i) := by
      rintro (h | h)
      · exact hlt h
      · omega
    rw [if_neg hnear, h.cell_eq (by omega)]
    have hget := getElem?_window r.seq r.offset.toNat objs.length i
    rw [h.window_eq, List.getElem?_map, if_pos (by omega)] at hget
    obtain ⟨p, hp, hseq⟩ := Option.map_eq_some_iff.mp hget
    rw [hp]
    exact congrArg Except.ok hseq.symm

/-- A ring that is not full takes the next version. -/
lemma Holds.set (h : Holds r objs) {num : UInt64} (hroom : objs.length < 5) (val : π)
    (hnext : objs = [] ∨ num.toNat = r.min.toNat + objs.length) :
    ∃ r', r.set num val = .ok r' ∧ Holds r' (objs ++ [val]) ∧
      r'.min = if objs = [] then num else r.min := by
  have hcell := h.cell_eq hroom.le
  have hnum := num.toNat_lt
  have hi : goInt (num - if objs = [] then num else r.min).toNat = objs.length := by
    split_ifs with hnil
    · rw [UInt64.sub_self, hnil]
      exact goInt_of_range (by simp) (by simp)
    · have heq := hnext.resolve_left hnil
      rw [UInt64.toNat_sub_of_le _ _ (UInt64.le_iff_toNat_le.mpr (by omega)), heq,
        Nat.add_sub_cancel_left]
      exact goInt_of_range (by omega) (by omega)
  have hmin : (if r.count = 0 then { r with min := num } else r) =
      { r with min := if objs = [] then num else r.min } := by
    have hzero : r.count = 0 ↔ objs = [] := by
      rw [h.count_eq, Nat.cast_eq_zero, List.length_eq_zero_iff]
    split_ifs <;> first | rfl | simp_all
  refine ⟨{ r with
    min := if objs = [] then num else r.min
    seq := Function.update r.seq (Fin.ofNat 5 (r.offset.toNat + objs.length)) (some val)
    count := objs.length + 1 }, ?_, ⟨?_, ?_, ?_, h.offset_nonneg, h.offset_lt, ?_⟩, rfl⟩
  · rw [Ringbuf.set, if_neg (by rw [h.count_eq]; omega), hmin]
    simp only [hi]
    rw [if_neg (by simp [h.count_eq]), hcell, h.count_eq, goInt_of_range (by omega) (by omega)]
    rfl
  · simp
  · rw [List.length_append, List.length_singleton]
    omega
  · rw [List.length_append, List.length_singleton]
    dsimp only
    split_ifs with hnil
    · rw [hnil, List.length_nil]
      omega
    · have heq := hnext.resolve_left hnil
      omega
  · rw [List.length_append, List.length_singleton, window_update _ _ hroom, h.window_eq,
      List.map_append, List.map_singleton]

lemma Holds.del {p : π} (h : Holds r (p :: objs)) :
    ∃ r', r.del r.min = .ok r' ∧ Holds r' objs ∧ r'.min = r.min + 1 := by
  have h₀ := h.offset_nonneg
  have h₅ := h.offset_lt
  have hlen := h.length_le
  have hver := h.versions
  rw [List.length_cons] at hlen hver
  obtain ⟨k, hk⟩ := Int.eq_ofNat_of_zero_le h₀
  refine ⟨{ r with
    min := r.min + 1
    offset := (goInt (r.offset + 1)).tmod 5
    count := goInt (r.count - 1) }, ?_, ⟨?_, by omega, ?_, ?_, ?_, ?_⟩, rfl⟩
  · rw [Ringbuf.del, if_neg (by simp)]
  · simp only [h.count_eq, List.length_cons]
    rw [goInt_of_range (by omega) (by omega)]
    omega
  · simp only [UInt64.toNat_add, UInt64.toNat_one]
    omega
  all_goals
    simp only
    rw [goInt_of_range (by omega) (by omega), hk]
  · exact Int.tmod_nonneg _ (by omega)
  · exact Int.tmod_lt_of_pos _ (by omega)
  · have hwin := h.window_eq
    rw [List.length_cons, window_succ, List.map_cons, List.cons.injEq, hk] at hwin
    have hmod : ((k : ℤ) + 1).tmod 5 = (((k + 1) % 5 : ℕ) : ℤ) := Int.ofNat_tmod (k + 1) 5
    rw [hmod, Int.toNat_natCast, window_mod]
    exact hwin.2

end Ringbuf

namespace Dbs

variable {δ τ : Type} {maker : UInt64 → ℕ → DbPair δ τ} {t : Dbs δ τ} {objs : List (DbPair δ τ)}

/-! ### Live versions -/

/-- The object of a live version. -/
def live (t : Dbs δ τ) (ver : UInt64) : Option (DbPair δ τ) :=
  if t.seq.min ≤ ver ∧ (ver.toNat - t.seq.min.toNat : ℕ) < t.seq.count then
    t.seq.seq (Fin.ofNat 5 (t.seq.offset.toNat + (ver.toNat - t.seq.min.toNat)))
  else none

lemma live_eq (h : t.seq.Holds objs) (ver : UInt64) :
    t.live ver = if t.seq.min ≤ ver then objs[ver.toNat - t.seq.min.toNat]? else none := by
  rw [live, h.count_eq]
  generalize ver.toNat - t.seq.min.toNat = i
  have hget := getElem?_window t.seq.seq t.seq.offset.toNat objs.length i
  rw [h.window_eq, List.getElem?_map] at hget
  by_cases hi : i < objs.length
  · rw [if_pos hi] at hget
    obtain ⟨p, hp, hseq⟩ := Option.map_eq_some_iff.mp hget
    simp only [Nat.cast_lt, hi, and_true, hp, hseq]
  · rw [List.getElem?_eq_none (by omega)]
    simp only [Nat.cast_lt, hi, and_false, if_false, ite_self]

variable {ver : UInt64}

lemma live_append {r' : Ringbuf (DbPair δ τ)} {x : DbPair δ τ} (h : t.seq.Holds objs)
    (hmin : r'.min = if objs = [] then ver else t.seq.min)
    (hnext : objs = [] ∨ ver.toNat = t.seq.min.toNat + objs.length) (u : UInt64) :
    (if r'.min ≤ u then (objs ++ [x])[u.toNat - r'.min.toNat]? else none) =
      if u = ver then some x else t.live u := by
  have heq : u = ver ↔ u.toNat = ver.toNat := UInt64.toNat_inj.symm
  simp only [live_eq h, hmin, heq, UInt64.le_iff_toNat_le]
  by_cases hnil : objs = []
  · rw [if_pos hnil, hnil, List.nil_append, List.getElem?_nil, ite_self, List.getElem?_singleton,
      ← ite_and]
    exact if_congr (by omega) rfl rfl
  · have hver := hnext.resolve_left hnil
    rw [if_neg hnil]
    rcases lt_trichotomy u.toNat ver.toNat with hlt | hlt | hlt
    · rw [if_neg hlt.ne, List.getElem?_append]
      split_ifs <;> first | rfl | omega
    · rw [if_pos hlt, if_pos (by omega), List.getElem?_append_right (by omega), hlt, hver,
        Nat.add_sub_cancel_left, Nat.sub_self, List.getElem?_cons_zero]
    · rw [if_neg hlt.ne', if_pos (by omega), List.getElem?_eq_none (by simp; omega),
        if_pos (by omega), List.getElem?_eq_none (by omega)]

/-- The versions in the ring were made for it. -/
structure Holds (maker : UInt64 → ℕ → DbPair δ τ) (t : Dbs δ τ) (objs : List (DbPair δ τ)) :
    Prop where
  seq_holds : t.seq.Holds objs
  made_for : ∀ ver p, t.live ver = some p → ∃ n < t.made, p = maker ver n

/-- `Get` does not leave a gap: the version is below the ring, in it or the next one. -/
def FitsGet (ver : UInt64) (t : Dbs δ τ) : Prop :=
  ver < t.seq.min ∨ (ver.toNat : ℤ) < t.seq.min.toNat + t.seq.count ∨
    t.seq.count < 5 ∧ ((ver.toNat : ℤ) = t.seq.min.toNat + t.seq.count ∨
      t.seq.count = 0 ∧ ver.toNat < t.seq.min.toNat + 2 ^ 63)

/-- `Del` does not go beyond the ring, and not up to the highest number. -/
def FitsDel (ver : UInt64) (t : Dbs δ τ) : Prop :=
  ver < t.seq.min ∨ (ver.toNat : ℤ) < t.seq.min.toNat + t.seq.count ∧ ver.toNat + 1 < 2 ^ 64

/-- The states of runs whose steps all fit. -/
inductive Reached (maker : UInt64 → ℕ → DbPair δ τ) : Dbs δ τ → Prop
  | new : Reached maker new
  | get {t t' : Dbs δ τ} {ver r} (ht : Reached maker t) (hfit : FitsGet ver t)
      (hget : get maker ver t = .ok (r, t')) : Reached maker t'
  | del {t t' : Dbs δ τ} {ver fuel} (ht : Reached maker t) (hfit : FitsDel ver t)
      (hdel : del fuel ver t = .ok t') : Reached maker t'
  | restart {t : Dbs δ τ} (ht : Reached maker t) : Reached maker t.restart

lemma Holds.get (h : Holds maker t objs) (hfit : FitsGet ver t) :
    ∃ r t' objs', Dbs.get maker ver t = .ok (r, t') ∧ Holds maker t' objs' ∧
      (ver < t.seq.min → r = none ∧ t' = t) ∧
      (∀ p, t.live ver = some p → r = some p.tables ∧ t' = t) ∧
      (t.seq.min ≤ ver → t.live ver = none → r = some (maker ver t.made).tables ∧
        ∀ u, t'.live u = if u = ver then some (maker ver t.made) else t.live u) := by
  obtain ⟨hseq, hmade⟩ := h
  by_cases hlt : ver < t.seq.min
  · have hlive : t.live ver = none := by rw [live_eq hseq, if_neg (UInt64.not_le.mpr hlt)]
    refine ⟨none, t, objs, by rw [Dbs.get, if_pos hlt], ⟨hseq, hmade⟩, fun _ => ⟨rfl, rfl⟩, ?_, ?_⟩
    · rw [hlive]
      rintro p ⟨⟩
    · exact fun hle => absurd hle (UInt64.not_le.mpr hlt)
  have hle := UInt64.not_lt.mp hlt
  have hle' := UInt64.le_iff_toNat_le.mp hle
  have hcount := hseq.count_eq
  have hlen := hseq.length_le
  have hfit' := hfit.resolve_left hlt
  have hget := hseq.get hle (by rw [hcount] at hfit'; omega)
  have hlive : t.live ver = objs[ver.toNat - t.seq.min.toNat]? := by rw [live_eq hseq, if_pos hle]
  rw [← hlive] at hget
  rw [Dbs.get, if_neg hlt, hget]
  cases hp : t.live ver with
  | some p =>
    refine ⟨some p.tables, t, objs, rfl, ⟨hseq, hmade⟩, fun h => absurd h hlt, ?_, ?_⟩
    · rintro q ⟨⟩
      exact ⟨rfl, rfl⟩
    · rintro - ⟨⟩
  | none =>
    rw [hlive, List.getElem?_eq_none_iff] at hp
    have hroom : objs.length < 5 := by
      rcases hfit' with hin | ⟨hroom, -⟩ <;> omega
    have hnext : objs = [] ∨ ver.toNat = t.seq.min.toNat + objs.length := by
      rw [← List.length_eq_zero_iff]
      omega
    obtain ⟨r', hset, hholds, hmin⟩ := hseq.set hroom (maker ver t.made) hnext
    have hlive' : ∀ u, live { t with seq := r', made := t.made + 1 } u =
        if u = ver then some (maker ver t.made) else t.live u := fun u => by
      have hu := live_append (x := maker ver t.made) hseq hmin hnext u
      rwa [live_eq hholds]
    refine ⟨some (maker ver t.made).tables, { t with seq := r', made := t.made + 1 },
      objs ++ [maker ver t.made], ?_, ⟨hholds, fun u p hu => ?_⟩, fun h => absurd h hlt, ?_,
      fun _ _ => ⟨rfl, hlive'⟩⟩
    · simp only [bind, Except.bind, hset]
      rfl
    · rw [hlive'] at hu
      split_ifs at hu with heq
      · cases hu
        exact ⟨t.made, Nat.lt_succ_self _, by rw [heq]⟩
      · obtain ⟨n, hn, hp⟩ := hmade u p hu
        exact ⟨n, hn.trans (Nat.lt_succ_self _), hp⟩
    · rintro p ⟨⟩

variable {t' : Dbs δ τ} {fuel : ℕ}

lemma delLoop_mono {i : UInt64} {fuel' : ℕ} (hle : fuel ≤ fuel') (h : delLoop ver fuel i t = .ok t') :
    delLoop ver fuel' i t = .ok t' := by
  induction fuel generalizing fuel' i t with
  | zero => cases h
  | succ fuel ih =>
    obtain ⟨fuel', rfl⟩ := Nat.exists_eq_succ_of_ne_zero (show fuel' ≠ 0 by omega)
    rw [delLoop] at h ⊢
    split_ifs at h ⊢
    · obtain ⟨tmp, htmp, h⟩ := bind_eq_ok_iff.mp h
      obtain ⟨seq, hseq, h⟩ := bind_eq_ok_iff.mp h
      simp only [htmp, hseq, bind, Except.bind]
      exact ih (by omega) h
    · exact h

/-- The loop of `Del` takes the versions up to `ver` out of the ring. -/
lemma delLoop_ok (hver : ver.toNat + 1 < 2 ^ 64) {k : ℕ} (hfuel : k < fuel)
    {objs : List (DbPair δ τ)} (h : t.seq.Holds objs) (hk : k ≤ objs.length)
    (hmin : ver.toNat + 1 = t.seq.min.toNat + k) :
    ∃ t', delLoop ver fuel t.seq.min t = .ok t' ∧ t'.seq.Holds (objs.drop k) ∧
      t'.seq.min.toNat = ver.toNat + 1 ∧ t'.made = t.made := by
  induction k generalizing fuel t objs with
  | zero =>
    obtain ⟨fuel, rfl⟩ := Nat.exists_eq_succ_of_ne_zero hfuel.ne'
    refine ⟨t, ?_, by simpa using h, hmin.symm, rfl⟩
    rw [delLoop, if_neg]
    rw [UInt64.le_iff_toNat_le]
    omega
  | succ k ih =>
    obtain ⟨fuel, rfl⟩ := Nat.exists_eq_succ_of_ne_zero (show fuel ≠ 0 by omega)
    obtain ⟨p, rest, rfl⟩ := List.exists_cons_of_length_pos (show 0 < objs.length by omega)
    have hget := h.get (UInt64.le_refl t.seq.min) (by simp)
    rw [Nat.sub_self, List.getElem?_cons_zero] at hget
    obtain ⟨r', hdel, hholds, hmin'⟩ := h.del
    have hnat : r'.min.toNat = t.seq.min.toNat + 1 := by
      rw [hmin', UInt64.toNat_add, UInt64.toNat_one]
      omega
    rw [List.length_cons] at hk
    obtain ⟨t', hrun, hrest, hmin'', hmade⟩ :=
      ih (show k < fuel by omega) (t := { t with seq := r', dropped := t.dropped ++ [p.db] })
        hholds (by omega) (by simp only [hnat]; omega)
    refine ⟨t', ?_, hrest, hmin'', hmade⟩
    rw [delLoop, if_pos (by rw [UInt64.le_iff_toNat_le]; omega), hget]
    simp only [bind, Except.bind, hdel, Option.map_some, Option.toList_some]
    rw [← hmin']
    exact hrun

lemma del_mono {fuel' : ℕ} (hle : fuel ≤ fuel') (h : del fuel ver t = .ok t') :
    del fuel' ver t = .ok t' := by
  rw [del] at h ⊢
  split_ifs at h ⊢
  · exact h
  · obtain ⟨t'', hrun, h⟩ := bind_eq_ok_iff.mp h
    rw [delLoop_mono hle hrun]
    exact h

lemma Holds.del (h : Holds maker t objs) (hfit : FitsDel ver t) :
    ∃ t' objs', (∀ fuel, 6 ≤ fuel → Dbs.del fuel ver t = .ok t') ∧ Holds maker t' objs' ∧
      (∀ u, t'.live u = if u ≤ ver then none else t.live u) ∧ t'.made = t.made ∧
      (t.seq.min ≤ ver → t'.seq.min.toNat = ver.toNat + 1) := by
  obtain ⟨hseq, hmade⟩ := h
  by_cases hlt : ver < t.seq.min
  · refine ⟨t, objs, fun fuel _ => by rw [Dbs.del, if_pos hlt], ⟨hseq, hmade⟩, fun u => ?_, rfl,
      fun hle => absurd hle (UInt64.not_le.mpr hlt)⟩
    rw [live_eq hseq]
    rw [UInt64.lt_iff_toNat_lt] at hlt
    simp only [UInt64.le_iff_toNat_le]
    split_ifs <;> first | rfl | omega
  obtain ⟨hin, hmax⟩ := hfit.resolve_left hlt
  have hle := UInt64.le_iff_toNat_le.mp (UInt64.not_lt.mp hlt)
  have hlen := hseq.length_le
  rw [hseq.count_eq] at hin
  obtain ⟨t', hrun, hholds, hmin, hmade'⟩ := delLoop_ok hmax
    (show ver.toNat + 1 - t.seq.min.toNat < 6 by omega) hseq (by omega) (by omega)
  have hlive : ∀ u, live { t' with stored := some t'.seq.min } u =
      if u ≤ ver then none else t.live u := by
    intro u
    change t'.live u = _
    rw [live_eq hholds, live_eq hseq]
    simp only [UInt64.le_iff_toNat_le, hmin, List.getElem?_drop]
    rcases Nat.lt_or_ge ver.toNat u.toNat with hu | hu
    · rw [if_pos (Nat.succ_le_of_lt hu), if_neg (by omega), if_pos (by omega)]
      congr 1
      omega
    · rw [if_neg (by omega), if_pos hu]
  refine ⟨{ t' with stored := some t'.seq.min }, _, fun fuel hfuel => ?_, ⟨hholds, ?_⟩, hlive,
    hmade', fun _ => hmin⟩
  · rw [Dbs.del, if_neg hlt, delLoop_mono hfuel hrun]
    rfl
  · intro u p hu
    rw [hlive] at hu
    split_ifs at hu
    rw [hmade']
    exact hmade u p hu

lemma holds_loaded {min : UInt64} (hseq : t.seq = { Ringbuf.empty with min }) :
    Holds maker t [] := by
  have hholds : t.seq.Holds [] := hseq ▸ Ringbuf.holds_loadMin min
  refine ⟨hholds, fun ver p hp => ?_⟩
  rw [live_eq hholds, List.getElem?_nil, ite_self] at hp
  cases hp

/-- The ring is in order after every run. -/
lemma Reached.holds (h : Reached maker t) : ∃ objs, Holds maker t objs := by
  induction h with
  | new => exact ⟨[], holds_loaded rfl⟩
  | get ht hfit hget ih =>
    obtain ⟨objs, hholds⟩ := ih
    obtain ⟨r, t', objs', hget', hholds', -⟩ := hholds.get hfit
    rw [hget] at hget'
    cases hget'
    exact ⟨objs', hholds'⟩
  | @del t t' ver fuel ht hfit hdel ih =>
    obtain ⟨objs, hholds⟩ := ih
    obtain ⟨t'', objs', hdel', hholds', -⟩ := hholds.del hfit
    have heq := del_mono (le_max_left fuel 6) hdel
    rw [hdel' _ (le_max_right fuel 6)] at heq
    cases heq
    exact ⟨objs', hholds'⟩
  | @restart t ht ih =>
    cases hstored : t.stored with
    | none => exact ⟨[], holds_loaded (by rw [Dbs.restart, hstored]; rfl)⟩
    | some min => exact ⟨[], holds_loaded (by rw [Dbs.restart, hstored]; rfl)⟩

/-! ### Versions that do not fit -/

/-- A version that leaves a gap makes `Get` panic. -/
lemma Holds.not_get (h : Holds maker t objs) (hfar : ver.toNat < 2 ^ 63) (hfit : ¬ FitsGet ver t) :
    Dbs.get maker ver t = .error .panicked := by
  have hcount := h.seq_holds.count_eq
  rw [FitsGet, hcount] at hfit
  push Not at hfit
  obtain ⟨hlt, hbeyond, hgap⟩ := hfit
  have hle := UInt64.not_lt.mp hlt
  have hle' := UInt64.le_iff_toNat_le.mp hle
  rw [Dbs.get, if_neg hlt, h.seq_holds.get hle (by omega),
    List.getElem?_eq_none (by omega)]
  simp only [bind, Except.bind]
  have hset : t.seq.set ver (maker ver t.made) = .error .panicked := by
    rw [Ringbuf.set, hcount]
    by_cases hfull : (5 : ℤ) ≤ objs.length
    · rw [if_pos hfull]
    · have hgap' := hgap (by omega)
      have hne : (objs.length : ℤ) ≠ 0 := fun hzero => by
        have := hgap'.2 hzero
        omega
      rw [if_neg hfull, if_neg hne]
      simp only
      rw [UInt64.toNat_sub_of_le _ _ hle, goInt_of_range (by omega) (by omega), hcount, if_pos]
      omega
  rw [hset]

/-- Each version that is deleted is counted, also when it is not there. -/
lemma delLoop_count {i : UInt64} (hver : ver.toNat < 2 ^ 63) (hrun : delLoop ver fuel i t = .ok t')
    (hi : i = t.seq.min) (hmin : t.seq.min.toNat ≤ ver.toNat + 1)
    (hlow : (ver.toNat + 1 : ℤ) - t.seq.min.toNat ≤ t.seq.count + 2 ^ 63)
    (hhigh : t.seq.count < 2 ^ 63) :
    t'.seq.count = t.seq.count - (ver.toNat + 1 - t.seq.min.toNat) := by
  induction fuel generalizing i t with
  | zero => cases hrun
  | succ fuel ih =>
    subst hi
    rw [delLoop] at hrun
    split_ifs at hrun with hle
    · obtain ⟨tmp, -, hrun⟩ := bind_eq_ok_iff.mp hrun
      rw [Ringbuf.del, if_neg (by simp)] at hrun
      obtain ⟨seq, hseq, hrun⟩ := bind_eq_ok_iff.mp hrun
      cases hseq
      rw [UInt64.le_iff_toNat_le] at hle
      have hnat : (t.seq.min + 1).toNat = t.seq.min.toNat + 1 := by
        rw [UInt64.toNat_add, UInt64.toNat_one]
        omega
      have hstep : goInt (t.seq.count - 1) = t.seq.count - 1 :=
        goInt_of_range (by omega) (by omega)
      have hrest := ih hrun rfl (by simp only [hnat]; omega) (by simp only [hnat, hstep]; omega)
        (by simp only [hstep]; omega)
      simp only [hnat, hstep] at hrest
      rw [hrest]
      push_cast
      omega
    · cases hrun
      rw [UInt64.le_iff_toNat_le] at hle
      omega

/-- A version beyond the ring leaves a negative count. -/
lemma Holds.not_del (h : Holds maker t objs) (hfar : ver.toNat < 2 ^ 63) (hfit : ¬ FitsDel ver t)
    (hdel : Dbs.del fuel ver t = .ok t') : t'.seq.count < 0 := by
  have hcount := h.seq_holds.count_eq
  have hlen := h.seq_holds.length_le
  rw [FitsDel, not_or, not_and] at hfit
  obtain ⟨hle, hbeyond⟩ := hfit
  rw [Dbs.del, if_neg hle] at hdel
  obtain ⟨t'', hrun, hdel⟩ := bind_eq_ok_iff.mp hdel
  cases hdel
  rw [UInt64.not_lt, UInt64.le_iff_toNat_le] at hle
  have heq := delLoop_count hfar hrun rfl (by omega) (by omega) (by omega)
  have hbeyond' : ¬ (ver.toNat : ℤ) < t.seq.min.toNat + t.seq.count := fun hin =>
    hbeyond hin (by omega)
  simp only
  omega

/-- In every state of a run whose steps all fit, `Get` and `Del` return for the versions that fit,
at most five databases are live, a live version keeps the object made for it, and `Del` takes away
exactly the versions up to its own. Lower versions than `2 ^ 63` that do not fit make `Get` panic,
or leave a negative count after `Del`. -/
theorem get_del_of_reached (h : Reached maker t) (ver : UInt64) :
    (0 ≤ t.seq.count ∧ t.seq.count ≤ 5) ∧
    (∀ u p, t.live u = some p → ∃ n < t.made, p = maker u n) ∧
    (FitsGet ver t → ∃ r t', get maker ver t = .ok (r, t') ∧
      (ver < t.seq.min → r = none ∧ t' = t) ∧
      (∀ p, t.live ver = some p → r = some p.tables ∧ t' = t) ∧
      (t.seq.min ≤ ver → t.live ver = none → r = some (maker ver t.made).tables ∧
        ∀ u, t'.live u = if u = ver then some (maker ver t.made) else t.live u)) ∧
    (FitsDel ver t → ∃ t', (∀ fuel, 6 ≤ fuel → del fuel ver t = .ok t') ∧
      ∀ u, t'.live u = if u ≤ ver then none else t.live u) ∧
    (ver.toNat < 2 ^ 63 → (FitsGet ver t ↔ ∃ r, get maker ver t = .ok r) ∧
      (FitsDel ver t ↔ ∃ fuel t', del fuel ver t = .ok t' ∧ 0 ≤ t'.seq.count)) := by
  obtain ⟨objs, hholds⟩ := h.holds
  have hcount := hholds.seq_holds.count_eq
  have hlen := hholds.seq_holds.length_le
  refine ⟨⟨by omega, by omega⟩, hholds.made_for, fun hfit => ?_, fun hfit => ?_,
    fun hfar => ⟨?_, ?_⟩⟩
  · obtain ⟨r, t', -, hget, -, hspec⟩ := hholds.get hfit
    exact ⟨r, t', hget, hspec⟩
  · obtain ⟨t', -, hdel, -, hlive, -⟩ := hholds.del hfit
    exact ⟨t', hdel, hlive⟩
  · constructor
    · intro hfit
      obtain ⟨r, t', -, hget, -⟩ := hholds.get hfit
      exact ⟨_, hget⟩
    · rintro ⟨r, hget⟩
      by_contra hfit
      rw [hholds.not_get hfar hfit] at hget
      cases hget
  · constructor
    · intro hfit
      obtain ⟨t', objs', hdel, hholds', -⟩ := hholds.del hfit
      exact ⟨6, t', hdel 6 le_rfl, by rw [hholds'.seq_holds.count_eq]; exact Int.natCast_nonneg _⟩
    · rintro ⟨fuel, t', hdel, hnonneg⟩
      by_contra hfit
      exact absurd (hholds.not_del hfar hfit hdel) (not_lt.mpr hnonneg)

/-- The maker numbers its objects. -/
def numbered (ver : UInt64) (n : ℕ) : DbPair ℕ ℕ := ⟨ver.toNat, n⟩

theorem get_del_of_reached_second :
    ∃ t, Reached numbered t ∧ FitsGet 2 t ∧ ∃ r t', get numbered 2 t = .ok (r, t') := by
  have hrun : (get numbered 1 new).map (fun x => (x.2.seq.min, x.2.seq.count)) = .ok (1, 1) := by
    decide +kernel
  obtain ⟨⟨r, t⟩, hget, ht⟩ := map_eq_ok_iff.mp hrun
  obtain ⟨hmin, hcount⟩ := Prod.ext_iff.mp ht
  have hfit : FitsGet 2 t := .inr (.inr ⟨by simp_all, .inl (by simp_all)⟩)
  have hreached : Reached numbered t := .get .new (.inr (.inr (by decide))) hget
  obtain ⟨r', t', hget', -⟩ := (get_del_of_reached hreached 2).2.2.1 hfit
  exact ⟨t, hreached, hfit, r', t', hget'⟩

/-- Identifiers of the live epochs and of those that are gone can be looked up. -/
theorem onlyNotConnectedEvents_eq (has : τ → EventID → Bool) (h : Reached maker t)
    {ids : List EventID}
    (hids : ∀ id ∈ ids, (EventID.epoch id : ℤ) < t.seq.min.toNat + t.seq.count) :
    onlyNotConnectedEvents maker has ids t = .ok (ids.filter fun id =>
      !(t.live (UInt64.ofNat (EventID.epoch id))).any fun es => has es.tables id, t) := by
  induction ids with
  | nil => rfl
  | cons id ids ih =>
    have hepoch : (UInt64.ofNat (EventID.epoch id)).toNat = EventID.epoch id := by
      refine UInt64.toNat_ofNat_of_lt' ?_
      unfold EventID.epoch UInt64.size
      omega
    have hin : (EventID.epoch id : ℤ) < t.seq.min.toNat + t.seq.count := hids id (by simp)
    obtain ⟨objs, hholds⟩ := h.holds
    have hfit : FitsGet (UInt64.ofNat (EventID.epoch id)) t := .inr (.inl (by rwa [hepoch]))
    obtain ⟨r, t', -, hget, -, hbelow, hlive, -⟩ := hholds.get hfit
    have hres : r = (t.live (UInt64.ofNat (EventID.epoch id))).map (·.tables) ∧ t' = t := by
      cases hp : t.live (UInt64.ofNat (EventID.epoch id)) with
      | some p => exact hlive p hp
      | none =>
        refine hbelow (UInt64.not_le.mp fun hle => ?_)
        rw [live_eq hholds.seq_holds, if_pos hle, List.getElem?_eq_none_iff, hepoch] at hp
        rw [UInt64.le_iff_toNat_le, hepoch] at hle
        rw [hholds.seq_holds.count_eq] at hin
        omega
    obtain ⟨rfl, rfl⟩ := hres
    rw [onlyNotConnectedEvents, hasEventHeader, getEpochStore, hget]
    simp only [bind, Except.bind, pure, Except.pure, ih fun x hx => hids x (by simp [hx]),
      List.filter_cons, Option.any_map]
    cases (t'.live (UInt64.ofNat (EventID.epoch id))).any _ <;> rfl

theorem onlyNotConnectedEvents_eq_first :
    ∃ r t, get numbered 1 new = .ok (r, t) ∧
      (onlyNotConnectedEvents numbered (fun _ _ => true) [2 ^ 224, 0] t).map (·.1) = .ok [0] := by
  have hrun : (get numbered 1 new).map (fun x => (x.2.seq.min, x.2.seq.count, x.2.live 1, x.2.live 0)) =
      .ok (1, 1, some ⟨1, 0⟩, none) := by
    decide +kernel
  obtain ⟨⟨r, t⟩, hget, ht⟩ := map_eq_ok_iff.mp hrun
  simp only [Prod.mk.injEq] at ht
  obtain ⟨hmin, hcount, hone, hzero⟩ := ht
  have hreached : Reached numbered t := .get .new (.inr (.inr (by decide))) hget
  refine ⟨r, t, hget, ?_⟩
  rw [onlyNotConnectedEvents_eq _ hreached (by simp [EventID.epoch, hmin, hcount])]
  simp [EventID.epoch, Except.map, hone, hzero]

/-- The node is in epoch 1, and a peer sends an identifier of epoch 3. -/
theorem onlyNotConnectedEvents_panics :
    (getEpochStore numbered 1 new).map (·.1) = .ok (some 0) ∧
      ((getEpochStore numbered 1 new).bind fun x =>
        (onlyNotConnectedEvents numbered (fun _ _ => false) [3 * 2 ^ 224] x.2).map (·.1)) =
          .error .panicked := by
  decide +kernel

end Dbs

end Lachesis
