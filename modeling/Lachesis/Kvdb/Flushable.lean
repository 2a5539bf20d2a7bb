import Lachesis.Core.Cache
import Std.Data.ExtTreeMap

/-!
# Flushable stores

A flushable store keeps the writes that were not flushed beside the store it wraps. `CachedTable`
is such a store behind a read cache that is written through; it carries the proof that the cache
never differs from the store.
-/

namespace Lachesis

open Lachesis.Core Std

section Writes

variable {κ α : Type} [Ord κ] [TransOrd κ]

/-- A write of a batch: `none` deletes the key. -/
def applyWrite (db : ExtTreeMap κ α) (w : κ × Option α) : ExtTreeMap κ α :=
  match w.2 with
  | some v => db.insert w.1 v
  | none => db.erase w.1

/-- `batch.Write` -/
def applyWrites (db : ExtTreeMap κ α) (ws : List (κ × Option α)) : ExtTreeMap κ α :=
  ws.foldl applyWrite db

variable [LawfulEqOrd κ]

lemma getElem?_applyWrite [DecidableEq κ] (db : ExtTreeMap κ α) (w : κ × Option α) (k : κ) :
    (applyWrite db w)[k]? = if w.1 = k then w.2 else db[k]? := by
  obtain ⟨x, v⟩ := w
  cases v <;> simp [applyWrite, ExtTreeMap.getElem?_insert, ExtTreeMap.getElem?_erase]

/-- A batch leaves the other keys alone. -/
lemma getElem?_applyWrites_of_notMem {ws : List (κ × Option α)} {k : κ}
    (h : ∀ w ∈ ws, w.1 ≠ k) (db : ExtTreeMap κ α) : (applyWrites db ws)[k]? = db[k]? := by
  classical
  induction ws generalizing db with
  | nil => rfl
  | cons w ws ih =>
    rw [applyWrites, List.foldl_cons, ← applyWrites, ih fun w hw => h w (by simp [hw]),
      getElem?_applyWrite, if_neg (h w (by simp))]

/-- Of a batch with distinct keys each write is kept. -/
lemma getElem?_applyWrites_of_mem {ws : List (κ × Option α)} {w : κ × Option α}
    (hd : ws.Pairwise fun a b => a.1 ≠ b.1) (hw : w ∈ ws) (db : ExtTreeMap κ α) :
    (applyWrites db ws)[w.1]? = w.2 := by
  classical
  induction ws generalizing db with
  | nil => simp at hw
  | cons x ws ih =>
    obtain ⟨hx, hd⟩ := List.pairwise_cons.mp hd
    rw [applyWrites, List.foldl_cons, ← applyWrites]
    rcases List.mem_cons.mp hw with rfl | hw
    · rw [getElem?_applyWrites_of_notMem fun y hy => (hx y hy).symm, getElem?_applyWrite,
        if_pos rfl]
    · exact ih hd hw _

end Writes

/-- `flushable.Flushable`: the wrapped store and the writes on top of it. -/
structure Flushable (κ α : Type) [Ord κ] where
  underlying : ExtTreeMap κ α
  modified : ExtTreeMap κ (Option α)

namespace Flushable

variable {κ α : Type} [Ord κ] [TransOrd κ]

def wrap (db : ExtTreeMap κ α) : Flushable κ α := ⟨db, ∅⟩

def get (w : Flushable κ α) (k : κ) : Option α :=
  match w.modified[k]? with
  | some v => v
  | none => w.underlying[k]?

def put (w : Flushable κ α) (k : κ) (v : α) : Flushable κ α :=
  { w with modified := w.modified.insert k (some v) }

def notFlushedPairs (w : Flushable κ α) : ℕ := w.modified.size

def dropNotFlushed (w : Flushable κ α) : Flushable κ α := { w with modified := ∅ }

/-- `Flushable.Flush`, all of its batches together. -/
def flush (w : Flushable κ α) : Flushable κ α :=
  ⟨applyWrites w.underlying w.modified.toList, ∅⟩

@[simp] lemma get_wrap (db : ExtTreeMap κ α) (k : κ) : (wrap db).get k = db[k]? := by
  simp [wrap, get]

@[simp] lemma get_dropNotFlushed (w : Flushable κ α) (k : κ) :
    w.dropNotFlushed.get k = w.underlying[k]? := by
  simp [dropNotFlushed, get]

lemma get_of_pairs {w : Flushable κ α} (h : w.notFlushedPairs = 0) (k : κ) :
    w.get k = w.underlying[k]? := by
  rw [notFlushedPairs, ← ExtTreeMap.eq_empty_iff_size_eq_zero] at h
  simp [get, h]

variable [LawfulEqOrd κ]

lemma mem_keys {w : Flushable κ α} {k : κ} (h : (w.get k).isSome) :
    k ∈ w.underlying.keys ++ w.modified.keys := by
  rw [List.mem_append, ExtTreeMap.mem_keys, ExtTreeMap.mem_keys]
  unfold get at h
  cases hm : w.modified[k]? with
  | none =>
    rw [hm] at h
    exact Or.inl (ExtTreeMap.mem_iff_isSome_getElem?.mpr h)
  | some v => exact Or.inr (ExtTreeMap.mem_iff_isSome_getElem?.mpr (by rw [hm]; rfl))

/-- A write is seen at its key only. -/
lemma get_put [DecidableEq κ] (w : Flushable κ α) (k k' : κ) (v : α) :
    (w.put k v).get k' = if k' = k then some v else w.get k' := by
  simp only [get, put, ExtTreeMap.getElem?_insert, LawfulEqCmp.compare_eq_iff_eq, eq_comm (a := k)]
  split_ifs <;> rfl

/-- A flush writes down what was answered before it. -/
lemma underlying_flush (w : Flushable κ α) (k : κ) : w.flush.underlying[k]? = w.get k := by
  have hd : w.modified.toList.Pairwise fun a b => a.1 ≠ b.1 :=
    w.modified.distinct_keys_toList.imp fun h => by simpa using h
  rw [flush, get]
  cases h : w.modified[k]? with
  | none =>
    refine getElem?_applyWrites_of_notMem (fun x hx hk => ?_) _
    rw [← hk, ExtTreeMap.mem_toList_iff_getElem?_eq_some.mp hx] at h
    cases h
  | some v =>
    exact getElem?_applyWrites_of_mem hd (ExtTreeMap.mem_toList_iff_getElem?_eq_some.mpr h) _

/-- A flush is not seen by readers. -/
@[simp] lemma get_flush (w : Flushable κ α) (k : κ) : w.flush.get k = w.get k := by
  rw [← underlying_flush w, get]
  simp [flush]

end Flushable

/-! ### Behind a cache -/

/-- A store behind a cache that is written through. The cache holds what the store answers, also
that a key is absent. -/
structure CachedTable {κ α : Type} [Ord κ] [TransOrd κ] (C : Cache κ (Option α)) where
  table : Flushable κ α
  cache : C.State
  coherent : C.All (fun k v => v = table.get k) cache

namespace CachedTable

variable {κ α : Type} [Ord κ] [TransOrd κ] {C : Cache κ (Option α)}

/-- The table over a store, with nothing cached. -/
def wrap (C : Cache κ (Option α)) (db : ExtTreeMap κ α) : CachedTable C :=
  ⟨.wrap db, C.empty, Cache.all_empty⟩

/-- Read from the cache, or from the store into the cache. -/
def get (t : CachedTable C) (k : κ) : Option α × CachedTable C :=
  match (C.find t.cache k).1 with
  | some v => (v, ⟨t.table, (C.find t.cache k).2, t.coherent.find k⟩)
  | none => (t.table.get k,
      ⟨t.table, C.add (C.find t.cache k).2 k (t.table.get k), (t.coherent.find k).add rfl⟩)

/-- The cache is not seen from outside. -/
lemma get_fst (t : CachedTable C) (k : κ) : (t.get k).1 = t.table.get k := by
  unfold get
  split
  case h_1 v h => exact t.coherent.of_find_eq h
  case h_2 => rfl

lemma get_snd (t : CachedTable C) (k : κ) : (t.get k).2.table = t.table := by
  unfold get
  split <;> rfl

variable [LawfulEqOrd κ]

/-- Write to the store and to the cache. -/
def set [DecidableEq κ] (t : CachedTable C) (k : κ) (v : α) : CachedTable C :=
  ⟨t.table.put k v, C.add t.cache k (some v), t.coherent.add_update (by simp [Flushable.get_put])
    fun k' v' hne h => by rw [h, Flushable.get_put, if_neg hne]⟩

/-- `Flush` of the wrapped store; what is cached stays. -/
def flush (t : CachedTable C) : CachedTable C :=
  ⟨t.table.flush, t.cache, t.coherent.mono fun k v h => by rw [h, Flushable.get_flush]⟩

/-- `DropNotFlushed` of the wrapped store, with the cache purged. -/
def dropNotFlushed (t : CachedTable C) : CachedTable C :=
  ⟨t.table.dropNotFlushed, C.empty, Cache.all_empty⟩

end CachedTable

end Lachesis
