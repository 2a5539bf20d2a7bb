import Lachesis.Kvdb.Table

/-!
# Pools of stores that are flushed together

A pool hands out flushable stores by name and flushes all of them at once. Around the flush it puts
a flag into every wrapped store, at a key of its own: first that the store is dirty, then the
identifier of the flush. Tables over a store of the pool do not see each other, but a table whose
prefix begins the key of the flag sees the flag.
-/

namespace Lachesis

open Lachesis.Core Std

def flagKey : Bytes := [102, 108, 97, 103]

/-- The mark `dirty` of a store that is being flushed. -/
def dirtyMark : Bytes := [100, 105, 114, 116, 121]

/-- The mark `initial` of a store that has not been flushed yet. -/
def initialMark : Bytes := [105, 110, 105, 116, 105, 97, 108]

/-- `flushable.SyncedPool`: the stores by name, and the names to drop with the next flush. -/
structure SyncedPool where
  wrappers : ExtTreeMap String (Flushable Bytes Bytes)
  queuedDrops : List String

namespace SyncedPool

/-- The wrapped store of a wrapper marked as dirty. -/
def writeDirty (id : Bytes) (w : Flushable Bytes Bytes) : Flushable Bytes Bytes :=
  let prev := w.underlying[flagKey]?.getD initialMark
  { w with underlying := w.underlying.insert flagKey (dirtyMark ++ prev ++ id) }

/-- The wrapped store of a wrapper marked with the identifier of the flush. -/
def writeClean (id : Bytes) (w : Flushable Bytes Bytes) : Flushable Bytes Bytes :=
  { w with underlying := w.underlying.insert flagKey id }

/-- `SyncedPool.Flush`: queued stores are dropped; then each loop does the same to all others. No
write of a flush fails. -/
def flush (valueSize : ValueSize Bytes Bytes) (p : SyncedPool) (id : Bytes) : SyncedPool where
  wrappers := (p.wrappers.filter fun name _ => name ∉ p.queuedDrops)
    |>.map (fun _ w => writeDirty id w)
    |>.map (fun _ w => (w.flushBatches valueSize fun _ => false).2)
    |>.map (fun _ w => writeClean id w)
  queuedDrops := []

/-- `SyncedPool.GetDb`: the wrapper of the name, or a new one over an empty store. -/
def getDb (p : SyncedPool) (name : String) : Flushable Bytes Bytes :=
  p.wrappers[name]?.getD (.wrap ∅)

/-- The pool after an operation on the store of the name. -/
def withDb (p : SyncedPool) (name : String) (w : Flushable Bytes Bytes) : SyncedPool :=
  { p with wrappers := p.wrappers.insert name w }

variable {p : SyncedPool} {name : String} {w : Flushable Bytes Bytes}

@[simp] lemma getDb_withDb : (p.withDb name w).getDb name = w := by
  simp [getDb, withDb]

variable (valueSize : ValueSize Bytes Bytes) (id : Bytes)

/-- What a flush does to a store of the pool that is not dropped. -/
def flushDb (w : Flushable Bytes Bytes) : Flushable Bytes Bytes :=
  writeClean id ((writeDirty id w).flushBatches valueSize fun _ => false).2

lemma wrappers_flush (hget : p.wrappers[name]? = some w) (hname : name ∉ p.queuedDrops) :
    (p.flush valueSize id).wrappers[name]? = some (flushDb valueSize id w) := by
  simp [flush, ExtTreeMap.getElem?_map, ExtTreeMap.getElem?_filter, hget, hname, flushDb]

lemma get_insert_underlying (w : Flushable Bytes Bytes) {k key : Bytes} (value : Bytes)
    (hk : k ≠ key) :
    ({ w with underlying := w.underlying.insert key value } : Flushable Bytes Bytes).get k =
      w.get k := by
  have hne : ¬ key = k := Ne.symm hk
  simp [Flushable.get, ExtTreeMap.getElem?_insert, hne]

/-- A flush changes nothing but the flag. -/
lemma get_flushDb (w : Flushable Bytes Bytes) {k : Bytes} (hk : k ≠ flagKey) :
    (flushDb valueSize id w).get k = w.get k := by
  rw [flushDb, Flushable.flushBatches_of_not_fails valueSize fun _ => rfl, writeClean,
    get_insert_underlying _ _ hk, Flushable.get_flush, writeDirty, get_insert_underlying _ _ hk]

lemma get_flushDb_flagKey (w : Flushable Bytes Bytes) :
    (flushDb valueSize id w).get flagKey = some id := by
  rw [flushDb, Flushable.flushBatches_of_not_fails valueSize fun _ => rfl]
  simp [writeClean, Flushable.get, Flushable.flush]

end SyncedPool

/-! ### Runs -/

/-- What is done to the tables of a store of a pool, and the flushes of the pool. Batches of a table
are numbered. -/
inductive TableOp
  | put (pre key value : Bytes)
  | delete (pre key : Bytes)
  | batchPut (pre : Bytes) (batch : ℕ) (key value : Bytes)
  | batchDelete (pre : Bytes) (batch : ℕ) (key : Bytes)
  | batchWrite (pre : Bytes) (batch : ℕ)
  | batchReset (pre : Bytes) (batch : ℕ)
  | flush (id : Bytes)

/-- The table that is written to. -/
def TableOp.table : TableOp → Option Bytes
  | put pre _ _ => some pre
  | delete pre _ => some pre
  | batchPut pre _ _ _ => some pre
  | batchDelete pre _ _ => some pre
  | batchWrite pre _ => some pre
  | batchReset pre _ => some pre
  | flush _ => none

/-- A pool and the batches of the tables of one of its stores. -/
structure PoolTables where
  pool : SyncedPool
  batches : Bytes → ℕ → List (Bytes × Option Bytes)

namespace PoolTables

def setBatch (s : PoolTables) (pre : Bytes) (b : ℕ) (batch : List (Bytes × Option Bytes)) :
    PoolTables :=
  { s with batches := Function.update s.batches pre (Function.update (s.batches pre) b batch) }

def setDb (s : PoolTables) (name : String) (w : Flushable Bytes Bytes) : PoolTables :=
  { s with pool := s.pool.withDb name w }

/-- An operation on the tables of the store of the name, or a flush of the pool. -/
def step (valueSize : ValueSize Bytes Bytes) (name : String) (s : PoolTables) :
    TableOp → PoolTables
  | .put pre key value => s.setDb name (Table.put (s.pool.getDb name) pre key value)
  | .delete pre key => s.setDb name (Table.delete (s.pool.getDb name) pre key)
  | .batchPut pre b key value =>
    s.setBatch pre b (s.batches pre b ++ [(prefixed key pre, some value)])
  | .batchDelete pre b key => s.setBatch pre b (s.batches pre b ++ [(prefixed key pre, none)])
  | .batchWrite pre b => s.setDb name ((s.pool.getDb name).writeCacheBatch (s.batches pre b))
  | .batchReset pre b => s.setBatch pre b []
  | .flush id => { s with pool := s.pool.flush valueSize id }

/-- The pool with no batch. -/
def start (pool : SyncedPool) : PoolTables := ⟨pool, fun _ _ => []⟩

end PoolTables

/-- A map of its own, and its batches. -/
structure PlainTable where
  live : ExtTreeMap Bytes Bytes
  batches : ℕ → List (Bytes × Option Bytes)

namespace PlainTable

/-- The table with no batch. -/
def start (live : ExtTreeMap Bytes Bytes) : PlainTable := ⟨live, fun _ => []⟩

/-- An operation on the table itself. -/
def write (t : PlainTable) : TableOp → PlainTable
  | .put _ key value => { t with live := t.live.insert key value }
  | .delete _ key => { t with live := t.live.erase key }
  | .batchPut _ b key value =>
    { t with batches := Function.update t.batches b (t.batches b ++ [(key, some value)]) }
  | .batchDelete _ b key =>
    { t with batches := Function.update t.batches b (t.batches b ++ [(key, none)]) }
  | .batchWrite _ b => { t with live := applyWrites t.live (t.batches b) }
  | .batchReset _ b => { t with batches := Function.update t.batches b [] }
  | .flush _ => t

/-- Only operations on the table with the prefix matter. -/
def step (pre : Bytes) (t : PlainTable) (op : TableOp) : PlainTable :=
  if op.table = some pre then t.write op else t

end PlainTable

/-- Tables with these prefixes do not interfere: in any pool and through any operations on them and
any flushes, each table answers as a map does that only its own operations change. -/
def Isolated (keys : List Bytes) : Prop :=
  ∀ (valueSize : ValueSize Bytes Bytes) (pool : SyncedPool) (name : String)
    (w : Flushable Bytes Bytes), pool.wrappers[name]? = some w → name ∉ pool.queuedDrops →
  ∀ pre ∈ keys, ∀ live, Table.Answers w pre live →
  ∀ ops : List TableOp, (∀ op ∈ ops, ∀ p ∈ op.table, p ∈ keys) →
    Table.Answers
      ((ops.foldl (PoolTables.step valueSize name) (.start pool)).pool.getDb name) pre
      (ops.foldl (PlainTable.step pre) (.start live)).live

/-! ### One table among others -/

section Follows

variable {w : Flushable Bytes Bytes} {pre q : Bytes} {live : ExtTreeMap Bytes Bytes}

lemma get_put_own (h : ∀ k, Table.get w pre k = live[k]?) (key value k : Bytes) :
    Table.get (Table.put w pre key value) pre k = (live.insert key value)[k]? := by
  rw [Table.get, Table.put, Flushable.get_put, ← Table.get, h, ExtTreeMap.getElem?_insert]
  simp [prefixed_inj, @eq_comm _ k]

lemma get_delete_own (h : ∀ k, Table.get w pre k = live[k]?) (key k : Bytes) :
    Table.get (Table.delete w pre key) pre k = (live.erase key)[k]? := by
  rw [Table.get, Table.delete, Flushable.get_delete, ← Table.get, h, ExtTreeMap.getElem?_erase]
  simp [prefixed_inj, @eq_comm _ k]

/-- The writes of a batch with the prefix in front of the keys. -/
def prefixWrites (pre : Bytes) (batch : List (Bytes × Option Bytes)) :
    List (Bytes × Option Bytes) :=
  batch.map fun kv => (prefixed kv.1 pre, kv.2)

lemma get_writeCacheBatch_own (h : ∀ k, Table.get w pre k = live[k]?)
    (batch : List (Bytes × Option Bytes)) (k : Bytes) :
    Table.get (w.writeCacheBatch (prefixWrites pre batch)) pre k = (applyWrites live batch)[k]? := by
  induction batch generalizing w live with
  | nil => exact h k
  | cons kv batch ih =>
    obtain ⟨key, value⟩ := kv
    cases value with
    | none => exact ih (get_delete_own h key)
    | some value => exact ih (get_put_own h key value)

variable (hne : ∀ k k', prefixed k q ≠ prefixed k' pre)
include hne

lemma get_put_other (key value k : Bytes) :
    Table.get (Table.put w q key value) pre k = Table.get w pre k := by
  rw [Table.get, Table.put, Flushable.get_put, if_neg (hne key k).symm, Table.get]

lemma get_delete_other (key k : Bytes) :
    Table.get (Table.delete w q key) pre k = Table.get w pre k := by
  rw [Table.get, Table.delete, Flushable.get_delete, if_neg (hne key k).symm, Table.get]

lemma get_writeCacheBatch_other (batch : List (Bytes × Option Bytes)) (k : Bytes) :
    Table.get (w.writeCacheBatch (prefixWrites q batch)) pre k = Table.get w pre k := by
  induction batch generalizing w with
  | nil => rfl
  | cons kv batch ih =>
    obtain ⟨key, value⟩ := kv
    cases value with
    | none => exact (ih (w := Table.delete w q key)).trans (get_delete_other hne key k)
    | some value => exact (ih (w := Table.put w q key value)).trans (get_put_other hne key value k)

end Follows

/-- The store of the name is in the pool, all batches have the prefix of their table, and the table
with the prefix is the map. -/
structure PoolTables.Follows (s : PoolTables) (name : String) (pre : Bytes) (t : PlainTable) :
    Prop where
  kept : (s.pool.wrappers[name]?).isSome
  queued : name ∉ s.pool.queuedDrops
  get : ∀ k, Table.get (s.pool.getDb name) pre k = t.live[k]?
  own : ∀ b, s.batches pre b = prefixWrites pre (t.batches b)
  batches : ∀ q b, ∃ batch, s.batches q b = prefixWrites q batch

namespace PoolTables

variable {s : PoolTables} {name : String} {pre : Bytes} {t : PlainTable}

lemma Follows.setDb (h : s.Follows name pre t) {w : Flushable Bytes Bytes}
    {live : ExtTreeMap Bytes Bytes} (hw : ∀ k, Table.get w pre k = live[k]?) :
    (s.setDb name w).Follows name pre { t with live } where
  kept := by simp [PoolTables.setDb, SyncedPool.withDb]
  queued := h.queued
  get := by simpa [PoolTables.setDb] using hw
  own := h.own
  batches := h.batches

lemma batches_setBatch (h : ∀ q b, ∃ batch, s.batches q b = prefixWrites q batch) (p : Bytes)
    (b : ℕ) (batch : List (Bytes × Option Bytes)) (q : Bytes) (b' : ℕ) :
    ∃ batch', (s.setBatch p b (prefixWrites p batch)).batches q b' = prefixWrites q batch' := by
  by_cases hq : q = p
  · subst hq
    by_cases hb : b' = b
    · subst hb
      exact ⟨batch, by simp [setBatch]⟩
    · simpa [setBatch, hb] using h q b'
  · simpa [setBatch, hq] using h q b'

section

variable (h : s.Follows name pre t)
include h

lemma Follows.setBatch_own (b : ℕ) (batch : List (Bytes × Option Bytes)) :
    (s.setBatch pre b (prefixWrites pre batch)).Follows name pre
      { t with batches := Function.update t.batches b batch } where
  kept := h.kept
  queued := h.queued
  get := h.get
  own b' := by
    by_cases hb : b' = b
    · subst hb
      simp [setBatch]
    · simp [setBatch, hb, h.own]
  batches := batches_setBatch h.batches pre b batch

lemma Follows.setBatch_other {q : Bytes} (hq : q ≠ pre) (b : ℕ)
    (batch : List (Bytes × Option Bytes)) :
    (s.setBatch q b (prefixWrites q batch)).Follows name pre t where
  kept := h.kept
  queued := h.queued
  get := h.get
  own b' := by simpa [setBatch, hq.symm] using h.own b'
  batches := batches_setBatch h.batches q b batch

variable (valueSize : ValueSize Bytes Bytes)

lemma Follows.flush (hflag : ¬ pre <+: flagKey) (id : Bytes) :
    ({ s with pool := s.pool.flush valueSize id } : PoolTables).Follows name pre t := by
  obtain ⟨w, hw⟩ := Option.isSome_iff_exists.mp h.kept
  have hflush := SyncedPool.wrappers_flush valueSize id hw h.queued
  have hdb : s.pool.getDb name = w := by simp [SyncedPool.getDb, hw]
  refine ⟨by simp [hflush], by simp [SyncedPool.flush], ?_, h.own, h.batches⟩
  intro k
  have hk : prefixed k pre ≠ flagKey := fun heq => hflag ⟨k, heq⟩
  rw [← h.get, hdb, SyncedPool.getDb, hflush, Option.getD_some, Table.get,
    SyncedPool.get_flushDb valueSize id w hk, Table.get]

/-- A table does to the pool what it does alone. -/
lemma Follows.step_own {op : TableOp} (hop : op.table = some pre) :
    (s.step valueSize name op).Follows name pre (t.write op) := by
  cases op with
  | put p key value =>
    obtain rfl := Option.some.inj hop
    exact h.setDb (get_put_own h.get key value)
  | delete p key =>
    obtain rfl := Option.some.inj hop
    exact h.setDb (get_delete_own h.get key)
  | batchPut p b key value =>
    obtain rfl := Option.some.inj hop
    have hset := h.setBatch_own b (t.batches b ++ [(key, some value)])
    rwa [prefixWrites, List.map_append, ← prefixWrites, ← h.own] at hset
  | batchDelete p b key =>
    obtain rfl := Option.some.inj hop
    have hset := h.setBatch_own b (t.batches b ++ [(key, none)])
    rwa [prefixWrites, List.map_append, ← prefixWrites, ← h.own] at hset
  | batchWrite p b =>
    obtain rfl := Option.some.inj hop
    have hset := h.setDb (get_writeCacheBatch_own h.get (t.batches b))
    rwa [← h.own] at hset
  | batchReset p b =>
    obtain rfl := Option.some.inj hop
    exact h.setBatch_own b []
  | flush id => cases hop

/-- An operation on another table changes nothing. -/
lemma Follows.step_other {op : TableOp} {q : Bytes} (hop : op.table = some q) (hq : q ≠ pre)
    (hne : ∀ k k', prefixed k q ≠ prefixed k' pre) :
    (s.step valueSize name op).Follows name pre t := by
  cases op with
  | put p key value =>
    obtain rfl := Option.some.inj hop
    exact h.setDb fun k => (get_put_other hne key value k).trans (h.get k)
  | delete p key =>
    obtain rfl := Option.some.inj hop
    exact h.setDb fun k => (get_delete_other hne key k).trans (h.get k)
  | batchPut p b key value =>
    obtain rfl := Option.some.inj hop
    obtain ⟨batch, hbatch⟩ := h.batches p b
    have hset := h.setBatch_other hq b (batch ++ [(key, some value)])
    rwa [prefixWrites, List.map_append, ← prefixWrites, ← hbatch] at hset
  | batchDelete p b key =>
    obtain rfl := Option.some.inj hop
    obtain ⟨batch, hbatch⟩ := h.batches p b
    have hset := h.setBatch_other hq b (batch ++ [(key, none)])
    rwa [prefixWrites, List.map_append, ← prefixWrites, ← hbatch] at hset
  | batchWrite p b =>
    obtain rfl := Option.some.inj hop
    obtain ⟨batch, hbatch⟩ := h.batches p b
    have hset := h.setDb fun k => (get_writeCacheBatch_other hne batch k).trans (h.get k)
    rwa [← hbatch] at hset
  | batchReset p b =>
    obtain rfl := Option.some.inj hop
    exact h.setBatch_other hq b []
  | flush id => cases hop

end

section Run

variable {tags keys : List Bytes} (htags : migrateTables tags = some keys) (hpre : pre ∈ keys)
  (hflag : ¬ pre <+: flagKey) (valueSize : ValueSize Bytes Bytes)
include htags hpre hflag

/-- Operations on other tables leave a table alone. -/
lemma Follows.step (h : s.Follows name pre t) {op : TableOp}
    (hop : ∀ p ∈ op.table, p ∈ keys) :
    (s.step valueSize name op).Follows name pre (t.step pre op) := by
  unfold PlainTable.step
  split_ifs with hown
  · exact h.step_own valueSize hown
  · cases htable : op.table with
    | none =>
      cases op with
      | flush id => exact h.flush valueSize hflag id
      | _ => cases htable
    | some q =>
      have hq : q ≠ pre := by
        rintro rfl
        exact hown htable
      exact h.step_other valueSize htable hq
        (prefixed_ne_prefixed htags (hop q htable) hpre hq)

lemma Follows.run (h : s.Follows name pre t) {ops : List TableOp}
    (hops : ∀ op ∈ ops, ∀ p ∈ op.table, p ∈ keys) :
    (ops.foldl (PoolTables.step valueSize name) s).Follows name pre
      (ops.foldl (PlainTable.step pre) t) := by
  induction ops generalizing s t with
  | nil => exact h
  | cons op ops ih =>
    exact ih (h.step htags hpre hflag valueSize (hops op (by simp)))
      fun op' hop' => hops op' (List.mem_cons_of_mem _ hop')

end Run

end PoolTables

/-- A pool with a new store for the main database. -/
def newPool : SyncedPool :=
  ⟨(∅ : ExtTreeMap String (Flushable Bytes Bytes)).insert "main" (.wrap ∅), []⟩

lemma get_newPool_flush {pre k : Bytes} (hk : prefixed k pre = flagKey) (id : Bytes) :
    Table.get ((newPool.flush (fun _ => 0) id).getDb "main") pre k = some id := by
  have hw : newPool.wrappers["main"]? = some (.wrap ∅) := by simp [newPool]
  have hflush := SyncedPool.wrappers_flush (fun _ => 0) id hw (by simp [newPool])
  rw [SyncedPool.getDb, hflush, Option.getD_some, Table.get, hk, SyncedPool.get_flushDb_flagKey]

/-- Accepted tables are isolated if and only if no prefix begins the key of the flag. -/
theorem isolated_iff {tags keys : List Bytes} (h : migrateTables tags = some keys) :
    Isolated keys ↔ ∀ pre ∈ keys, ¬ pre <+: flagKey := by
  constructor
  · intro hisolated pre hpre ⟨k, hk⟩
    have hw : newPool.wrappers["main"]? = some (.wrap ∅) := by simp [newPool]
    have hanswers : Table.Answers (.wrap ∅ : Flushable Bytes Bytes) pre ∅ :=
      Table.answers_iff.mpr fun k => by simp [Table.get]
    have hrun := (hisolated (fun _ => 0) newPool "main" _ hw (by simp [newPool]) pre hpre ∅ hanswers
      [.flush []] (by simp [TableOp.table])).get k
    have hget := (get_newPool_flush hk []).symm.trans hrun
    simp [PlainTable.step, PlainTable.start, TableOp.table] at hget
  · intro hflag valueSize pool name w hw hname pre hpre live hlive ops hops
    have hstart : (PoolTables.start pool).Follows name pre (.start live) := by
      refine ⟨by simp [PoolTables.start, hw], hname, ?_, fun _ => rfl, fun _ _ => ⟨[], rfl⟩⟩
      intro k
      have hdb : (PoolTables.start pool).pool.getDb name = w := by
        simp [PoolTables.start, SyncedPool.getDb, hw]
      rw [hdb]
      exact hlive.get k
    exact Table.answers_iff.mpr (hstart.run h hpre (hflag pre hpre) valueSize hops).get

/-- The tags `_`, `c`, `e`, `C` and `f` of the main database of the consensus engine. -/
def mainTags : List Bytes := [[95], [99], [101], [67], [102]]

/-- The table `FrameInfos` finds the flag of the pool, at the key `lag`. -/
theorem not_isolated_mainTags :
    migrateTables mainTags = some mainTags ∧
      Table.get ((newPool.flush (fun _ => 0) [1]).getDb "main") [102] [108, 97, 103] = some [1] :=
  ⟨by decide +kernel, get_newPool_flush rfl [1]⟩

/-- The tags `r` and `v` of the databases of the epochs. -/
def epochTags : List Bytes := [[114], [118]]

theorem isolated_iff_epochTags : Isolated epochTags ∧ ¬ Isolated mainTags := by
  constructor
  · have htags : migrateTables epochTags = some epochTags := by decide +kernel
    exact (isolated_iff htags).mpr (by decide +kernel)
  · have htags : migrateTables mainTags = some mainTags := by decide +kernel
    exact fun h => (isolated_iff htags).mp h [102] (by decide +kernel) ⟨[108, 97, 103], rfl⟩

end Lachesis
