import Mathlib.Data.Finset.Card

/-!
# Caches that may forget

A cache answers a lookup with the last value added for the key, or not at all. Which entries it
drops and when is its own business: `Cache` collects what a caller may rely on, and `Cache.lru` is
the least-recently-used cache of a given capacity.
-/

namespace Lachesis.Core

/-- A cache, with the laws its callers rely on: what it holds for a key is the last value added. -/
structure Cache (κ α : Type) where
  State : Type
  empty : State
  find : State → κ → Option α × State
  add : State → κ → α → State
  /-- What the cache holds; nothing but the laws below speaks of it. -/
  content : State → κ → Option α
  content_empty : ∀ k, content empty k = none
  find_fst : ∀ s k, (find s k).1 = content s k
  content_find : ∀ s k k' v, content (find s k).2 k' = some v → content s k' = some v
  content_add : ∀ s k v k' v', content (add s k v) k' = some v' →
    (k' = k ∧ v' = v) ∨ (k' ≠ k ∧ content s k' = some v')

namespace Cache

variable {κ α : Type}

def All (C : Cache κ α) (P : κ → α → Prop) (s : C.State) : Prop :=
  ∀ k v, C.content s k = some v → P k v

variable {C : Cache κ α} {P Q : κ → α → Prop} {s : C.State}

lemma all_empty : C.All P C.empty := by
  intro k v h
  simp [C.content_empty] at h

lemma All.find (h : C.All P s) (k : κ) : C.All P (C.find s k).2 :=
  fun k' v hv => h k' v (C.content_find s k k' v hv)

lemma All.of_find_eq (h : C.All P s) {k : κ} {v : α} (hv : (C.find s k).1 = some v) : P k v :=
  h k v (by rwa [C.find_fst] at hv)

lemma All.add (h : C.All P s) {k : κ} {v : α} (hP : P k v) : C.All P (C.add s k v) := by
  intro k' v' hv
  rcases C.content_add s k v k' v' hv with ⟨rfl, rfl⟩ | ⟨-, hv⟩
  · exact hP
  · exact h k' v' hv

lemma All.add_update (h : C.All P s) {k : κ} {v : α} (hQ : Q k v)
    (hPQ : ∀ k' v', k' ≠ k → P k' v' → Q k' v') : C.All Q (C.add s k v) := by
  intro k' v' hv
  rcases C.content_add s k v k' v' hv with ⟨rfl, rfl⟩ | ⟨hne, hv⟩
  · exact hQ
  · exact hPQ k' v' hne (h k' v' hv)

lemma All.find_update (h : C.All P s) {k : κ} (hk : (C.find s k).1 = none)
    (hPQ : ∀ k' v', k' ≠ k → P k' v' → Q k' v') : C.All Q (C.find s k).2 := by
  intro k' v' hv
  have hv' := C.content_find s k k' v' hv
  refine hPQ k' v' ?_ (h k' v' hv')
  rintro rfl
  rw [C.find_fst, hv'] at hk
  cases hk

lemma All.mono (h : C.All P s) (hPQ : ∀ k v, P k v → Q k v) : C.All Q s :=
  fun k v hv => hPQ k v (h k v hv)

/-- A lookup does not drop the entry it finds. -/
def Steady (C : Cache κ α) : Prop :=
  ∀ s k v, C.content s k = some v → C.content (C.find s k).2 k = some v

/-! ### The least-recently-used cache -/

section Lru

variable [DecidableEq κ]

lemma lookup_filter_ne {l : List (κ × α)} {k k' : κ} (h : k' ≠ k) :
    (l.filter (·.1 ≠ k)).lookup k' = l.lookup k' := by
  induction l with
  | nil => rfl
  | cons p l ih =>
    obtain ⟨x, v⟩ := p
    by_cases hx : x = k
    · subst hx
      have hne : (k' == x) = false := by simpa using h
      simpa [List.lookup_cons, hne] using ih
    · rw [List.filter_cons_of_pos (by simpa using hx), List.lookup_cons, List.lookup_cons, ih]

lemma lookup_take {l : List (κ × α)} {n : ℕ} {k : κ} {v : α}
    (h : (l.take n).lookup k = some v) : l.lookup k = some v := by
  rw [← List.take_append_drop n l, List.lookup_append, h]
  rfl

/-- The cache of capacity `n`: entries in the order of their last use, the latest first. -/
def lru (n : ℕ) : Cache κ α where
  State := List (κ × α)
  empty := []
  find l k :=
    match l.lookup k with
    | some v => (some v, (k, v) :: l.filter (·.1 ≠ k))
    | none => (none, l)
  add l k v := ((k, v) :: l.filter (·.1 ≠ k)).take n
  content l k := l.lookup k
  content_empty _ := rfl
  find_fst l k := by cases h : l.lookup k <;> simp
  content_find l k k' v h := by
    cases hk : l.lookup k with
    | none => simpa [hk] using h
    | some u =>
      simp only [hk, List.lookup_cons] at h
      by_cases hkk : k' = k
      · subst hkk
        simp only [beq_self_eq_true] at h
        rw [hk, h]
      · have hne : (k' == k) = false := by simpa using hkk
        simp only [hne] at h
        rwa [lookup_filter_ne hkk] at h
  content_add l k v k' v' h := by
    have h' := lookup_take h
    rw [List.lookup_cons] at h'
    by_cases hkk : k' = k
    · subst hkk
      simp only [beq_self_eq_true, Option.some.injEq] at h'
      exact Or.inl ⟨rfl, h'.symm⟩
    · have hne : (k' == k) = false := by simpa using hkk
      simp only [hne] at h'
      exact Or.inr ⟨hkk, by rwa [lookup_filter_ne hkk] at h'⟩

lemma steady_lru (n : ℕ) : (lru n : Cache κ α).Steady := by
  intro (l : List (κ × α)) k v (h : l.lookup k = some v)
  simp only [lru, h, List.lookup_cons, beq_self_eq_true]

end Lru

end Cache

/-! ### Caches with removal

Callers that also remove entries and list the keys rely on more laws, and so do those that are
called back for each entry that goes. `Lru` is the least-recently-used cache with all of them.
-/

/-- A cache of at most `size` entries, with the laws its callers rely on: as long as all keys are
from a set that fits, nothing is dropped. -/
structure LruCache (κ α : Type) (size : ℕ) [DecidableEq κ] where
  State : Type
  empty : State
  /-- The value of a key; the order of use stays. -/
  peek : State → κ → Option α
  keys : State → List κ
  /-- The key has been used. -/
  touch : State → κ → State
  add : State → κ → α → State
  remove : State → κ → State
  peek_empty : ∀ k, peek empty k = none
  mem_keys_iff : ∀ {s k}, k ∈ keys s ↔ ∃ v, peek s k = some v
  length_keys_le : ∀ s, (keys s).length ≤ size
  peek_touch : ∀ {s k k'}, peek (touch s k) k' = peek s k'
  peek_add : ∀ {s k v k'} {fits : Finset κ}, (∀ j ∈ keys s, j ∈ fits) → k ∈ fits →
    fits.card ≤ size → peek (add s k v) k' = if k' = k then some v else peek s k'
  peek_remove : ∀ {s k k'}, peek (remove s k) k' = if k' = k then none else peek s k'

/-- The callback is called once for each entry that is gone. -/
def Reports {κ α : Type} (peek peek' : κ → Option α) (calls : List (κ × α)) : Prop :=
  (calls.map Prod.fst).Nodup ∧ ∀ k v, (k, v) ∈ calls ↔ peek k = some v ∧ peek' k = none

/-- A cache with a callback for the entries that are evicted, removed or purged. -/
structure EvictCache (κ α : Type) (size : ℕ) [DecidableEq κ] extends LruCache κ α size where
  purge : State → State
  /-- The calls of the callback while the key is added. -/
  onAdd : State → κ → α → List (κ × α)
  onRemove : State → κ → List (κ × α)
  onPurge : State → List (κ × α)
  peek_purge : ∀ {s k}, peek (purge s) k = none
  /-- The added key stays, and the others keep their values or go. -/
  peek_add_self : ∀ {s k v}, 0 < size → peek (add s k v) k = some v
  peek_of_peek_add : ∀ {s k v k' v'}, k' ≠ k → peek (add s k v) k' = some v' → peek s k' = some v'
  reports_add : ∀ {s k v}, 0 < size → Reports (peek s) (peek (add s k v)) (onAdd s k v)
  reports_remove : ∀ {s k}, Reports (peek s) (peek (remove s k)) (onRemove s k)

section

variable {κ α : Type} [DecidableEq κ] {size : ℕ}

namespace LruCache

variable {C : LruCache κ α size} {s s' : C.State} {k : κ}

/-- The keys depend only on the lookups. -/
lemma mem_keys_congr (h : ∀ k, C.peek s k = C.peek s' k) : k ∈ C.keys s ↔ k ∈ C.keys s' := by
  rw [C.mem_keys_iff, C.mem_keys_iff, h]

variable [DecidableEq α] {v : α}

def holders (C : LruCache κ α size) (s : C.State) (v : α) : Finset κ :=
  (C.keys s).toFinset.filter (C.peek s · = some v)

@[simp]
lemma mem_holders : k ∈ C.holders s v ↔ C.peek s k = some v := by
  rw [holders, Finset.mem_filter, List.mem_toFinset, C.mem_keys_iff, and_iff_right_iff_imp]
  exact fun h => ⟨v, h⟩

/-- What was held is kept or reported. -/
lemma card_kept_add_countP {calls : List (κ × α)} (h : Reports (C.peek s) (C.peek s') calls) :
    ((C.holders s v).filter fun k => C.peek s' k ≠ none).card + calls.countP (·.2 = v) =
      (C.holders s v).card := by
  have hgone : ((calls.filter (·.2 = v)).map Prod.fst).toFinset =
      (C.holders s v).filter fun k => ¬ C.peek s' k ≠ none := by
    ext k
    simp only [List.mem_toFinset, List.mem_map, List.mem_filter, decide_eq_true_eq,
      Finset.mem_filter, mem_holders, not_not]
    rw [← h.2]
    constructor
    · rintro ⟨⟨k, u⟩, ⟨hmem, rfl⟩, rfl⟩
      exact hmem
    · exact fun hmem => ⟨(k, v), ⟨hmem, rfl⟩, rfl⟩
  have hnodup := h.1.sublist ((List.filter_sublist (p := (·.2 = v))).map Prod.fst)
  rw [List.countP_eq_length_filter, ← List.length_map (f := Prod.fst),
    ← List.toFinset_card_of_nodup hnodup, hgone]
  exact Finset.card_filter_add_card_filter_not _

end LruCache

/-- The entries of a least-recently-used cache of capacity `size`, the latest first. -/
structure Lru (κ α : Type) (size : ℕ) where
  entries : List (κ × α)
  nodup : (entries.map Prod.fst).Nodup
  length_le : entries.length ≤ size

namespace Lru

lemma lookup_eq_some_iff_mem {l : List (κ × α)} (h : (l.map Prod.fst).Nodup) {k : κ} {v : α} :
    l.lookup k = some v ↔ (k, v) ∈ l := by
  rw [List.lookup_eq_some_iff]
  constructor
  · rintro ⟨as, bs, rfl, -⟩
    simp
  · intro hmem
    obtain ⟨as, bs, rfl⟩ := List.append_of_mem hmem
    refine ⟨as, bs, rfl, fun p hp => ?_⟩
    rw [List.map_append, List.nodup_append] at h
    simpa using (h.2.2 p.1 (List.mem_map_of_mem hp) k (by simp)).symm

variable (c : Lru κ α size) (k : κ) (v : α)

lemma nodup_cons_filter : (((k, v) :: c.entries.filter (·.1 ≠ k)).map Prod.fst).Nodup := by
  rw [List.map_cons, List.nodup_cons]
  refine ⟨?_, c.nodup.sublist (List.filter_sublist.map _)⟩
  simp

/-- The cache after the key has been used. -/
def touch : Lru κ α size :=
  match h : c.entries.lookup k with
  | none => c
  | some v =>
    { entries := (k, v) :: c.entries.filter (·.1 ≠ k)
      nodup := c.nodup_cons_filter k v
      length_le := by
        obtain ⟨as, bs, hsplit, -⟩ := List.lookup_eq_some_iff.mp h
        have hlt : (c.entries.filter (·.1 ≠ k)).length < c.entries.length :=
          List.length_filter_lt_length_iff_exists.mpr ⟨(k, v), by simp [hsplit], by simp⟩
        exact (Nat.succ_le_of_lt hlt).trans c.length_le }

/-- The cache after the key has been added or updated; the oldest entry has to go if there are too
many. -/
def add : Lru κ α size where
  entries := ((k, v) :: c.entries.filter (·.1 ≠ k)).take size
  nodup := (c.nodup_cons_filter k v).sublist ((List.take_sublist _ _).map _)
  length_le := by simp

def remove : Lru κ α size where
  entries := c.entries.filter (·.1 ≠ k)
  nodup := c.nodup.sublist (List.filter_sublist.map _)
  length_le := (List.length_filter_le _ _).trans c.length_le

variable {c k v} {k' : κ}

lemma lookup_touch : (c.touch k).entries.lookup k' = c.entries.lookup k' := by
  unfold touch
  split
  · rfl
  · rename_i v h
    by_cases hk : k' = k
    · rw [List.lookup_cons, hk, beq_self_eq_true, h]
    · have hne : (k' == k) = false := by simpa using hk
      rw [List.lookup_cons, hne, Cache.lookup_filter_ne hk]

lemma lookup_remove :
    (c.remove k).entries.lookup k' = if k' = k then none else c.entries.lookup k' := by
  unfold remove
  split_ifs with hk
  · rw [hk, List.lookup_eq_none_iff]
    intro p hp
    have hne : p.1 ≠ k := by simpa using (List.mem_filter.mp hp).2
    simpa using hne.symm
  · exact Cache.lookup_filter_ne hk

lemma mem_map_fst_iff : k ∈ c.entries.map Prod.fst ↔ ∃ v, c.entries.lookup k = some v := by
  rw [List.mem_map, ← Option.isSome_iff_exists, List.lookup_isSome_iff]
  exact exists_congr fun p => and_congr_right fun _ => by rw [beq_iff_eq, eq_comm]

lemma lookup_cons_filter : ((k, v) :: c.entries.filter (·.1 ≠ k)).lookup k' =
    if k' = k then some v else c.entries.lookup k' := by
  rw [List.lookup_cons]
  split_ifs with h
  · rw [h, beq_self_eq_true]
  · have hne : (k' == k) = false := by simpa using h
    rw [hne, Cache.lookup_filter_ne h]

lemma lookup_add {fits : Finset κ} (hfits : ∀ j ∈ c.entries.map Prod.fst, j ∈ fits) (hk : k ∈ fits)
    (hsize : fits.card ≤ size) :
    (c.add k v).entries.lookup k' = if k' = k then some v else c.entries.lookup k' := by
  have hsub : ((k, v) :: c.entries.filter (·.1 ≠ k)).map Prod.fst ⊆ fits.toList := by
    intro x hx
    rw [Finset.mem_toList]
    rcases List.mem_cons.mp hx with rfl | hx
    · exact hk
    · obtain ⟨p, hp, rfl⟩ := List.mem_map.mp hx
      exact hfits _ (List.mem_map_of_mem (List.mem_filter.mp hp).1)
  have hlen := ((c.nodup_cons_filter k v).subperm hsub).length_le
  rw [List.length_map, Finset.length_toList] at hlen
  simp only [add]
  rw [List.take_of_length_le (hlen.trans hsize), lookup_cons_filter]

lemma lookup_add_self (hsize : 0 < size) : (c.add k v).entries.lookup k = some v := by
  obtain ⟨n, rfl⟩ := Nat.exists_eq_succ_of_ne_zero hsize.ne'
  simp [add]

/-- What is dropped are the entries behind the capacity. -/
lemma reports_add (hsize : 0 < size) :
    Reports (c.entries.lookup ·) ((c.add k v).entries.lookup ·)
      (((k, v) :: c.entries.filter (·.1 ≠ k)).drop size) := by
  have hnodup := c.nodup_cons_filter k v
  refine ⟨hnodup.sublist ((List.drop_sublist _ _).map _), fun k' v' => ?_⟩
  have hall := lookup_eq_some_iff_mem hnodup (k := k') (v := v')
  rw [lookup_cons_filter] at hall
  have hself : (c.add k v).entries.lookup k = some v := lookup_add_self hsize
  simp only [add] at hself ⊢
  generalize (k, v) :: c.entries.filter (·.1 ≠ k) = l at hnodup hall hself ⊢
  rw [← List.take_append_drop size l, List.map_append, List.nodup_append] at hnodup
  rw [← List.take_append_drop size l, List.mem_append] at hall
  constructor
  · intro hmem
    have hgone : (l.take size).lookup k' = none := by
      rw [List.lookup_eq_none_iff]
      intro p hp
      simpa using (hnodup.2.2 p.1 (List.mem_map_of_mem hp) k' (List.mem_map_of_mem hmem)).symm
    have hne : k' ≠ k := by
      rintro rfl
      simp [hgone] at hself
    rw [if_neg hne] at hall
    exact ⟨hall.mpr (.inr hmem), hgone⟩
  · rintro ⟨hold, hgone⟩
    have hne : k' ≠ k := by
      rintro rfl
      simp [hgone] at hself
    rw [if_neg hne] at hall
    refine (hall.mp hold).resolve_left fun hmem => ?_
    simp [(lookup_eq_some_iff_mem hnodup.1).mpr hmem] at hgone

variable (κ α size) in
/-- The least-recently-used cache. -/
def cache : EvictCache κ α size where
  State := Lru κ α size
  empty := ⟨[], List.nodup_nil, Nat.zero_le _⟩
  peek c k := c.entries.lookup k
  keys c := (c.entries.map Prod.fst).reverse
  touch := touch
  add := add
  remove := remove
  purge _ := ⟨[], List.nodup_nil, Nat.zero_le _⟩
  onAdd c k v := ((k, v) :: c.entries.filter (·.1 ≠ k)).drop size
  onRemove c k := c.entries.filter (·.1 = k)
  onPurge c := c.entries
  peek_empty _ := rfl
  mem_keys_iff := List.mem_reverse.trans mem_map_fst_iff
  length_keys_le c := by simpa using c.length_le
  peek_touch := lookup_touch
  peek_add h := lookup_add fun j hj => h j (List.mem_reverse.mpr hj)
  peek_remove := lookup_remove
  peek_purge := rfl
  peek_add_self := lookup_add_self
  peek_of_peek_add hne h := by
    have h' := Cache.lookup_take h
    rwa [lookup_cons_filter, if_neg hne] at h'
  reports_add := reports_add
  reports_remove := by
    intro c k
    refine ⟨c.nodup.sublist (List.filter_sublist.map _), fun k' v' => ?_⟩
    simp only [lookup_remove, lookup_eq_some_iff_mem c.nodup, List.mem_filter]
    apply and_congr_right
    intro hmem
    have hsome := (lookup_eq_some_iff_mem c.nodup).mpr hmem
    simp [hsome]

end Lru

end

end Lachesis.Core
