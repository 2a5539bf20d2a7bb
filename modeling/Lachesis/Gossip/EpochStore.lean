import Lachesis.Gossip.Temporary
import Mathlib.Data.Finset.Sort

/-!
# The stores of the epochs

The gossip store keeps a temporary database for each epoch, with the headers of the events and the
heads. A database is made when its epoch is asked for, and is empty then. What is written goes to
the database that is open for the epoch, and nowhere if the epoch is gone.
-/

namespace Lachesis

open Lachesis.Core

/-- The tables `Headers` and `Heads` of `epochStore`: which events have a header, and which are
heads. -/
structure EpochTables where
  headers : Finset EventID
  heads : Finset EventID
  deriving DecidableEq

def EpochTables.empty : EpochTables := ⟨∅, ∅⟩

/-- An open database: its version, and how many were made before it. -/
abbrev EpochHandle := UInt64 × ℕ

/-- `Store.EpochDbs` with the tables of the databases. -/
structure EpochStores where
  dbs : Dbs Unit EpochHandle
  tables : EpochHandle → EpochTables

/-- Calls of the store of an epoch. -/
abbrev EpochStoresM := StateT EpochStores (Except Fault)

namespace EpochStores

/-- What `EpochDbs` makes for a version. -/
def maker (ver : UInt64) (n : ℕ) : DbPair Unit EpochHandle := ⟨(), (ver, n)⟩

/-- The stores of a new node. -/
def new : EpochStores := ⟨Dbs.new, fun _ => .empty⟩

/-- `Store.getEpochStore` -/
def getEpochStore (epoch : ℕ) : EpochStoresM (Option EpochHandle) := fun s =>
  (Dbs.getEpochStore maker epoch s.dbs).map fun r => (r.1, { s with dbs := r.2 })

/-- `Store.delEpochStore` -/
def delEpochStore (epoch : ℕ) : EpochStoresM Unit := fun s =>
  (Dbs.del (epoch + 6) (UInt64.ofNat epoch) s.dbs).map fun dbs => ((), { s with dbs })

/-- A write to the store of an epoch. -/
def write (epoch : ℕ) (f : EpochTables → EpochTables) : EpochStoresM Unit := do
  match ← getEpochStore epoch with
  | none => return ()
  | some es => modify fun s => { s with tables := Function.update s.tables es (f (s.tables es)) }

/-- `Store.SetEventHeader` -/
def setEventHeader (epoch : ℕ) (h : EventID) : EpochStoresM Unit :=
  write epoch fun es => { es with headers := insert h es.headers }

/-- `Store.DelEventHeader` -/
def delEventHeader (epoch : ℕ) (h : EventID) : EpochStoresM Unit :=
  write epoch fun es => { es with headers := es.headers.erase h }

/-- `Store.HasEventHeader` -/
def hasEventHeader (h : EventID) : EpochStoresM Bool := do
  match ← getEpochStore (EventID.epoch h) with
  | none => return false
  | some es => return decide (h ∈ ((← get).tables es).headers)

/-- `Store.DelHead` -/
def delHead (epoch : ℕ) (id : EventID) : EpochStoresM Unit :=
  write epoch fun es => { es with heads := es.heads.erase id }

/-- `Store.AddHead` -/
def addHead (epoch : ℕ) (id : EventID) : EpochStoresM Unit :=
  write epoch fun es => { es with heads := insert id es.heads }

/-- `Store.GetHeads`, in the order of the keys. -/
def getHeads (epoch : ℕ) : EpochStoresM (List EventID) := do
  match ← getEpochStore epoch with
  | none => return []
  | some es => return ((← get).tables es).heads.sort

/-- What `processEvent` does with the stores when the epoch has changed. -/
def changeEpoch (oldEpoch newEpoch : ℕ) : EpochStoresM Unit := do
  delEpochStore oldEpoch
  let _ ← getEpochStore newEpoch
  return ()

/-! ### What is stored for an epoch -/

/-- The tables of the database that is open for an epoch. -/
def tablesOf (s : EpochStores) (n : ℕ) : Option EpochTables :=
  (s.dbs.live (UInt64.ofNat n)).map fun p => s.tables p.tables

/-- The databases are those made for their versions, and nothing was written before they were
made. -/
structure Good (s : EpochStores) : Prop where
  holds : ∃ objs, Dbs.Holds maker s.dbs objs
  fresh : ∀ ver n, s.dbs.made ≤ n → s.tables (ver, n) = .empty

lemma good_new : Good new where
  holds := ⟨[], Dbs.holds_loaded rfl⟩
  fresh _ _ _ := rfl

lemma tablesOf_new (n : ℕ) : new.tablesOf n = none := rfl

/-- Epochs are `uint32`. -/
lemma ofNat_inj {m n : ℕ} (hm : m < 2 ^ 63) (hn : n < 2 ^ 63) :
    UInt64.ofNat m = UInt64.ofNat n ↔ m = n := by
  rw [← UInt64.toNat_inj, UInt64.toNat_ofNat_of_lt' (by unfold UInt64.size; omega),
    UInt64.toNat_ofNat_of_lt' (by unfold UInt64.size; omega)]

/-! ### The calls -/

variable {s s' : EpochStores} {n : ℕ}

/-- The epoch can be asked for. -/
def Fits (s : EpochStores) (n : ℕ) : Prop := Dbs.FitsGet (UInt64.ofNat n) s.dbs

/-- What `getEpochStore` does: the epoch is gone, or its database is open afterwards, a new one if
there was none. -/
structure Opens (s : EpochStores) (n : ℕ) (r : Option EpochHandle) (s' : EpochStores) : Prop where
  good : Good s'
  tables_eq : s'.tables = s.tables
  others : ∀ m < 2 ^ 63, m ≠ n → s'.dbs.live (UInt64.ofNat m) = s.dbs.live (UInt64.ofNat m)
  result : r = none ∧ s' = s ∧ s.tablesOf n = none ∨
    ∃ k < s'.dbs.made, r = some (UInt64.ofNat n, k) ∧
      s'.dbs.live (UInt64.ofNat n) = some (maker (UInt64.ofNat n) k) ∧
      s.tables (UInt64.ofNat n, k) = (s.tablesOf n).getD .empty
  gone : r = none ↔ UInt64.ofNat n < s.dbs.seq.min

/-- The store of an epoch is opened, or it is gone. -/
lemma Good.getEpochStore (h : Good s) (hn : n < 2 ^ 63) :
    Yields (s.Fits n) (getEpochStore n) s (Opens s n) := by
  obtain ⟨objs, hholds⟩ := h.holds
  have hnat : (UInt64.ofNat n).toNat = n :=
    UInt64.toNat_ofNat_of_lt' (by unfold UInt64.size; omega)
  constructor
  · intro r s' hrun
    obtain ⟨⟨es, dbs⟩, hget, heq⟩ := map_eq_ok_iff.mp hrun
    obtain ⟨rfl, rfl⟩ := Prod.mk.inj heq
    by_cases hfit : s.Fits n
    · obtain ⟨r, t', objs', hget', hholds', hbelow, hlive, hnew⟩ := hholds.get hfit
      rw [Dbs.getEpochStore, hget'] at hget
      cases hget
      by_cases hlt : UInt64.ofNat n < s.dbs.seq.min
      · obtain ⟨rfl, rfl⟩ := hbelow hlt
        refine ⟨h, rfl, fun _ _ _ => rfl, .inl ⟨rfl, rfl, ?_⟩, by simp [hlt]⟩
        rw [tablesOf, Dbs.live_eq hholds.seq_holds, if_neg (UInt64.not_le.mpr hlt), Option.map_none]
      · cases hp : s.dbs.live (UInt64.ofNat n) with
        | some p =>
          obtain ⟨rfl, rfl⟩ := hlive p hp
          obtain ⟨k, hk, rfl⟩ := hholds.made_for _ p hp
          refine ⟨h, rfl, fun _ _ _ => rfl, .inr ⟨k, hk, rfl, hp, ?_⟩, by simp [hlt]⟩
          rw [tablesOf, hp, Option.map_some, Option.getD_some]
          rfl
        | none =>
          obtain ⟨rfl, hlive'⟩ := hnew (UInt64.not_lt.mp hlt) hp
          have hopen : dbs.live (UInt64.ofNat n) = some (maker (UInt64.ofNat n) s.dbs.made) := by
            rw [hlive', if_pos rfl]
          obtain ⟨k, hk, heq⟩ := hholds'.made_for _ _ hopen
          have hmade : s.dbs.made < dbs.made := by
            obtain rfl : s.dbs.made = k := (Prod.mk.inj (DbPair.mk.inj heq).2).2
            exact hk
          refine ⟨⟨⟨objs', hholds'⟩, fun ver k hle => h.fresh ver k (hmade.le.trans hle)⟩, rfl, ?_,
            .inr ⟨s.dbs.made, hmade, rfl, hopen, ?_⟩, by simp [hlt]⟩
          · intro m hm hne
            rw [hlive', if_neg (mt (ofNat_inj hm hn).mp hne)]
          · rw [tablesOf, hp, Option.map_none, Option.getD_none]
            exact h.fresh _ _ le_rfl
    · rw [Dbs.getEpochStore, hholds.not_get (by omega) hfit] at hget
      cases hget
  · intro hfit
    obtain ⟨r, t', -, hget, -⟩ := hholds.get hfit
    exact ⟨(r, { s with dbs := t' }), by
      simp only [EpochStores.getEpochStore, Dbs.getEpochStore, StateT.run, hget]; rfl⟩

lemma Opens.tablesOf_eq {r : Option EpochHandle} (h : Opens s n r s') {m : ℕ} (hm : m < 2 ^ 63) :
    s'.tablesOf m = if m = n ∧ r.isSome then some ((s.tablesOf n).getD .empty)
      else s.tablesOf m := by
  rcases h.result with ⟨rfl, rfl, -⟩ | ⟨k, -, rfl, hlive, htables⟩
  · simp
  · by_cases hmn : m = n
    · subst hmn
      rw [tablesOf, hlive, Option.map_some, h.tables_eq, if_pos (by simp), ← htables]
      rfl
    · rw [tablesOf, h.others m hm hmn, h.tables_eq, if_neg (by simp [hmn])]
      rfl

lemma Good.hasEventHeader (h : Good s) (id : EventID) :
    Yields (s.Fits (EventID.epoch id)) (hasEventHeader id) s fun has s' =>
      (∃ r, Opens s (EventID.epoch id) r s') ∧
      has = decide (id ∈ ((s.tablesOf (EventID.epoch id)).getD .empty).headers) := by
  have hlt : EventID.epoch id < 2 ^ 63 := by
    unfold EventID.epoch
    omega
  refine (h.getEpochStore hlt).bind fun r s₁ hopens => ?_
  rcases hopens.result with ⟨rfl, rfl, hnone⟩ | ⟨k, -, rfl, -, htables⟩
  · exact .pure ⟨⟨none, hopens⟩, by simp [hnone, EpochTables.empty]⟩
  · refine Yields.get_bind ?_
    exact .pure ⟨⟨_, hopens⟩, by rw [hopens.tables_eq, htables]⟩

lemma Good.getHeads (h : Good s) (hn : n < 2 ^ 63) :
    Yields (s.Fits n) (getHeads n) s fun heads s' =>
      (∃ r, Opens s n r s') ∧ heads = ((s.tablesOf n).getD .empty).heads.sort := by
  refine (h.getEpochStore hn).bind fun r s₁ hopens => ?_
  rcases hopens.result with ⟨rfl, rfl, hnone⟩ | ⟨k, -, rfl, -, htables⟩
  · exact .pure ⟨⟨none, hopens⟩, by simp [hnone, EpochTables.empty]⟩
  · refine Yields.get_bind ?_
    exact .pure ⟨⟨_, hopens⟩, by rw [hopens.tables_eq, htables]⟩

/-! ### Open epochs -/

variable {t : EpochTables}

lemma exists_live (hopen : s.tablesOf n = some t) : ∃ p, s.dbs.live (UInt64.ofNat n) = some p := by
  obtain ⟨p, hp, -⟩ := Option.map_eq_some_iff.mp hopen
  exact ⟨p, hp⟩

lemma toNat_ofNat (hn : n < 2 ^ 63) : (UInt64.ofNat n).toNat = n :=
  UInt64.toNat_ofNat_of_lt' (by unfold UInt64.size; omega)

lemma live_range {ver : UInt64} {p : DbPair Unit EpochHandle} (hp : s.dbs.live ver = some p) :
    s.dbs.seq.min ≤ ver ∧ (ver.toNat - s.dbs.seq.min.toNat : ℕ) < s.dbs.seq.count := by
  rw [Dbs.live] at hp
  split_ifs at hp with hrange
  exact hrange

lemma fits_of_open (hopen : s.tablesOf n = some t) : s.Fits n := by
  obtain ⟨p, hp⟩ := exists_live hopen
  obtain ⟨hle, hlt⟩ := live_range hp
  rw [UInt64.le_iff_toNat_le] at hle
  exact .inr (.inl (by omega))

/-- A write to an open epoch changes no other epoch. -/
lemma Good.write_open (h : Good s) (hn : n < 2 ^ 63) {es : EpochTables}
    (hopen : s.tablesOf n = some es) (f : EpochTables → EpochTables) :
    Returns (write n f) s fun _ s' => Good s' ∧
      ∀ m < 2 ^ 63, s'.tablesOf m = if m = n then some (f es) else s.tablesOf m := by
  refine ((h.getEpochStore hn).toReturns (fits_of_open hopen)).bind fun r s₁ hopens => ?_
  rcases hopens.result with ⟨rfl, rfl, hnone⟩ | ⟨k, hk, rfl, hlive, htables⟩
  · rw [hopen] at hnone
    cases hnone
  rw [hopen, Option.getD_some] at htables
  refine .modify ⟨⟨hopens.good.holds, fun ver j hj => ?_⟩, fun m hm => ?_⟩
  · have hne : (ver, j) ≠ (UInt64.ofNat n, k) := by
      intro heq
      obtain ⟨-, rfl⟩ := Prod.mk.inj heq
      exact absurd hk (Nat.not_lt.mpr hj)
    exact (Function.update_of_ne hne _ _).trans (hopens.good.fresh ver j hj)
  by_cases hmn : m = n
  · subst hmn
    rw [if_pos rfl, tablesOf, hlive, Option.map_some]
    simp only [maker, Function.update_self, hopens.tables_eq, htables]
  · -- the databases of other epochs have other handles
    obtain ⟨objs, hholds⟩ := hopens.good.holds
    have hold : s₁.tablesOf m = s.tablesOf m := by
      rw [hopens.tablesOf_eq hm, if_neg (by simp [hmn])]
    rw [if_neg hmn, ← hold, tablesOf, tablesOf]
    apply Option.map_congr
    intro p hp
    obtain ⟨j, -, rfl⟩ := hholds.made_for _ p hp
    refine Function.update_of_ne (fun heq => hmn ?_) _ _
    exact (ofNat_inj hm hn).mp (Prod.mk.inj heq).1

lemma Good.write_gone (h : Good s) (hn : n < 2 ^ 63) (hgone : UInt64.ofNat n < s.dbs.seq.min)
    (f : EpochTables → EpochTables) : Returns (write n f) s fun _ s' => s' = s := by
  refine ((h.getEpochStore hn).toReturns (.inl hgone)).bind fun r s₁ hopens => ?_
  obtain rfl := hopens.gone.mpr hgone
  rcases hopens.result with ⟨-, rfl, -⟩ | ⟨k, -, hsome, -⟩
  · exact .pure rfl
  · cases hsome

lemma Good.delHeads_open (h : Good s) (hn : n < 2 ^ 63) {es : EpochTables}
    (hopen : s.tablesOf n = some es) (ids : List EventID) :
    Returns (ids.forM fun id => delHead n id) s fun _ s' => Good s' ∧
      ∀ m < 2 ^ 63, s'.tablesOf m =
        if m = n then some { es with heads := es.heads \ ids.toFinset } else s.tablesOf m := by
  induction ids generalizing s es with
  | nil =>
    refine .pure ⟨h, fun m _ => ?_⟩
    split_ifs with hmn
    · simp [hmn, hopen]
    · rfl
  | cons id ids ih =>
    refine (h.write_open hn hopen _).bind ?_
    rintro _ s₁ ⟨hgood, htables⟩
    refine (ih hgood (by rw [htables n hn, if_pos rfl])).mono ?_
    rintro _ s₂ ⟨hgood', htables'⟩
    refine ⟨hgood', fun m hm => ?_⟩
    rw [htables' m hm, htables m hm]
    split_ifs
    · rw [List.toFinset_cons, Finset.sdiff_insert, Finset.erase_sdiff_comm]
    · rfl

lemma fits_new (hn : n < 2 ^ 63) : new.Fits n := by
  refine .inr (.inr ⟨by decide, .inr ⟨rfl, ?_⟩⟩)
  rw [toNat_ofNat hn]
  change n < 0 + 2 ^ 63
  omega

/-- The versions in the ring have no gap, so an epoch without a database that is below an open one
is gone. -/
lemma Good.lt_min (h : Good s) {m : ℕ} (hn : n < 2 ^ 63) (hopen : s.tablesOf n = some t)
    (hlt : m < n) (hnone : s.tablesOf m = none) : UInt64.ofNat m < s.dbs.seq.min := by
  obtain ⟨objs, hholds⟩ := h.holds
  obtain ⟨p, hp⟩ := exists_live hopen
  obtain ⟨-, hcount⟩ := live_range hp
  by_contra hge
  have hle := UInt64.not_lt.mp hge
  have hnone' : s.dbs.live (UInt64.ofNat m) = none := Option.map_eq_none_iff.mp hnone
  rw [Dbs.live_eq hholds.seq_holds, if_pos hle, List.getElem?_eq_none_iff,
    toNat_ofNat (hlt.trans hn)] at hnone'
  rw [hholds.seq_holds.count_eq, toNat_ofNat hn] at hcount
  omega

/-- The database of an epoch is dropped with the lower ones, and the next epoch is opened. -/
lemma Good.changeEpoch (h : Good s) (hn : n + 1 < 2 ^ 63) (hopen : s.tablesOf n = some t) :
    Returns (EpochStores.changeEpoch n (n + 1)) s fun _ s' => Good s' ∧
      ∀ m < 2 ^ 63, s'.tablesOf m = if m ≤ n then none
        else if m = n + 1 then some ((s.tablesOf m).getD .empty) else s.tablesOf m := by
  obtain ⟨objs, hholds⟩ := h.holds
  obtain ⟨p, hp⟩ := exists_live hopen
  obtain ⟨hle, hlt⟩ := live_range hp
  have hnat : (UInt64.ofNat n).toNat = n := toNat_ofNat (by omega)
  have hnat' : (UInt64.ofNat (n + 1)).toNat = n + 1 := toNat_ofNat hn
  have hle' := UInt64.le_iff_toNat_le.mp hle
  have hfit : Dbs.FitsDel (UInt64.ofNat n) s.dbs := .inr ⟨by omega, by omega⟩
  obtain ⟨dbs, objs', hdel, hholds', hlive, hmade, hmin⟩ := hholds.del hfit
  have hgood : Good { s with dbs } := by
    refine ⟨⟨objs', hholds'⟩, fun ver k hk => h.fresh ver k ?_⟩
    simpa [hmade] using hk
  have htables : ∀ m < 2 ^ 63, tablesOf { s with dbs } m =
      if m ≤ n then none else s.tablesOf m := by
    intro m hm
    have hiff : UInt64.ofNat m ≤ UInt64.ofNat n ↔ m ≤ n := by
      rw [UInt64.le_iff_toNat_le, hnat, toNat_ofNat hm]
    rw [tablesOf, hlive]
    by_cases hmn : m ≤ n
    · rw [if_pos (hiff.mpr hmn), if_pos hmn, Option.map_none]
    · rw [if_neg (mt hiff.mp hmn), if_neg hmn]
      rfl
  have hmin' : dbs.seq.min.toNat = n + 1 := by rw [hmin hle, hnat]
  -- the next version is the lowest one of the ring, or the ring is empty
  have hfit' : Fits { s with dbs } (n + 1) := by
    have hcount := hholds'.seq_holds.count_eq
    have hlen := hholds'.seq_holds.length_le
    rw [Fits, Dbs.FitsGet, hnat', hmin', hcount]
    omega
  refine Returns.bind (Q := fun _ s' => s' = { s with dbs }) ⟨(), { s with dbs }, ?_, rfl⟩ ?_
  · simp only [delEpochStore, StateT.run, hdel (n + 6) (by omega)]
    rfl
  · rintro _ _ rfl
    refine ((hgood.getEpochStore hn).toReturns hfit').bind fun r s' hopens => ?_
    refine .pure ⟨hopens.good, ?_⟩
    intro m hm
    have hsome : r.isSome := by
      rw [Option.isSome_iff_ne_none, Ne, hopens.gone, UInt64.lt_iff_toNat_lt, hnat', hmin']
      exact lt_irrefl _
    rw [hopens.tablesOf_eq hm, htables m hm, htables _ hn, hsome]
    by_cases hmn : m = n + 1
    · subst hmn
      simp
    · simp [hmn]

end EpochStores

end Lachesis
