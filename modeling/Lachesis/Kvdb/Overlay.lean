import Lachesis.Kvdb.Batches
import Lachesis.Kvdb.Traversal

/-!
# A flushable store is an overlay

Whatever is written, flushed and dropped, a flushable store answers as a plain map would for which
`DropNotFlushed` goes back to the map of the last `Flush`. A `Flush` of which a batch fails keeps
all writes, unless it is the last batch.
-/

namespace Lachesis

open Lachesis.Core Std

lemma sortedPairs_toList {κ α : Type} [Ord κ] [TransOrd κ] (m : ExtTreeMap κ α) :
    SortedPairs m.toList :=
  m.ordered_keys_toList

/-! ### Iterators -/

/-- The key is not before `start` and has the prefix, where they are given. -/
def inRange (start keyPrefix : Option Bytes) (key : Bytes) : Bool :=
  (start.all fun start => compare key start ≠ .lt) && keyPrefix.all fun pre => pre.isPrefixOf key

lemma inRange_iff {start keyPrefix : Option Bytes} {key : Bytes} :
    inRange start keyPrefix key ↔ (∀ k, start = some k → compare key k ≠ .lt) ∧
      ∀ pre, keyPrefix = some pre → pre.isPrefixOf key := by
  simp [inRange, Option.all_eq_true]

lemma inRange_self (keyPrefix : Option Bytes) (key : Bytes) :
    inRange keyPrefix keyPrefix key = keyPrefix.all fun pre => pre.isPrefixOf key := by
  cases keyPrefix with
  | none => rfl
  | some pre =>
    rw [Bool.eq_iff_iff, inRange_iff]
    simp only [Option.some.injEq, forall_eq', Option.all_some]
    exact ⟨fun h => h.2, fun h => ⟨isPrefixOf_le h, h⟩⟩

namespace Flushable

variable {α : Type} {w : Flushable Bytes α} {live : ExtTreeMap Bytes α}

lemma mem_live_iff (h : ∀ k, w.get k = live[k]?) (p : Bytes × α) :
    p ∈ live.toList ↔ (p.1, some p.2) ∈ w.modified.toList ∨
      (p ∈ w.underlying.toList ∧ ∀ v, (p.1, v) ∉ w.modified.toList) := by
  obtain ⟨k, v⟩ := p
  simp only [ExtTreeMap.mem_toList_iff_getElem?_eq_some, ← h, get]
  cases w.modified[k]? <;> simp

/-- An iteration returns the live pairs of its range in order. -/
lemma drain_range (h : ∀ k, w.get k = live[k]?) {tree : WriteTree α}
    (htree : tree.toList = w.modified.toList) (start keyPrefix : Option Bytes)
    (hpre : ∀ pre, keyPrefix = some pre → start = some pre) {fuel : ℕ} (hfuel : live.size < fuel) :
    (iterator tree start keyPrefix
      (w.underlying.toList.filter fun pair => inRange start keyPrefix pair.1)).drain fuel =
      some (live.toList.filter fun pair => inRange start keyPrefix pair.1) := by
  refine drain_iterator (by rw [htree]; exact sortedPairs_toList _)
    ((sortedPairs_toList _).filter _) (fun pre hp => ⟨hpre pre hp, fun p hmem => ?_⟩)
    ((sortedPairs_toList _).filter _) (fun p => ?_) ?_
  · exact (inRange_iff.mp (List.mem_filter.mp hmem).2).2 pre hp
  · rw [htree, List.mem_filter, List.mem_filter, mem_live_iff h, inRange_iff]
    constructor
    · rintro ⟨hp | ⟨hp, hnot⟩, hr⟩
      · exact Or.inl ⟨hp, hr⟩
      · exact Or.inr ⟨⟨hp, hr⟩, fun v hv => absurd hv (hnot v)⟩
    · rintro (⟨hp, hr⟩ | ⟨⟨hp, hr⟩, hnot⟩)
      · exact ⟨Or.inl hp, hr⟩
      · refine ⟨Or.inr ⟨hp, fun v hv => ?_⟩, hr⟩
        obtain ⟨k, hk, hlt⟩ := hnot v hv
        exact hr.1 k hk hlt
  · refine Nat.lt_of_le_of_lt (List.length_filter_le _ _) ?_
    rwa [ExtTreeMap.length_toList]

/-- `Get`, `Has` and the iterators of the store answer as the map does. -/
structure Answers (w : Flushable Bytes α) (live : ExtTreeMap Bytes α) : Prop where
  get : ∀ k, w.get k = live[k]?
  has : ∀ k, w.has k = decide (k ∈ live)
  newIterator : ∀ tree, tree.toList = w.modified.toList → ∀ fuel, live.size < fuel →
    (w.newIterator tree).drain fuel = some live.toList
  newIteratorWithStart : ∀ tree, tree.toList = w.modified.toList → ∀ fuel, live.size < fuel →
    ∀ start, (w.newIteratorWithStart tree start).drain fuel =
      some (live.toList.filter fun pair => start.all fun start => compare pair.1 start ≠ .lt)
  newIteratorWithPrefix : ∀ tree, tree.toList = w.modified.toList → ∀ fuel, live.size < fuel →
    ∀ pre, (w.newIteratorWithPrefix tree pre).drain fuel =
      some (live.toList.filter fun pair => pre.all fun pre => pre.isPrefixOf pair.1)

/-- The modifications can always be put into a tree. -/
lemma exists_tree (w : Flushable Bytes α) : ∃ tree : WriteTree α, tree.toList = w.modified.toList :=
  SearchTree.exists_lookupTree _

/-- All answers follow from those of `Get`. -/
theorem answers_iff : w.Answers live ↔ ∀ k, w.get k = live[k]? := by
  refine ⟨fun h => h.get, fun h => ⟨h, fun k => ?_, ?_, ?_, ?_⟩⟩
  · rw [has_eq, h, Bool.eq_iff_iff, decide_eq_true_iff]
    exact ExtTreeMap.mem_iff_isSome_getElem?.symm
  · intro tree htree fuel hfuel
    have hd := drain_range h htree none none (by simp) hfuel
    simpa [inRange, newIterator] using hd
  · intro tree htree fuel hfuel start
    have hd := drain_range h htree start none (by simp) hfuel
    simpa [inRange, newIteratorWithStart] using hd
  · intro tree htree fuel hfuel pre
    have hd := drain_range h htree pre pre (by simp) hfuel
    simpa only [inRange_self, newIteratorWithPrefix] using hd

lemma answers_flush (w : Flushable Bytes α) : w.Answers w.flush.underlying :=
  answers_iff.mpr fun k => (underlying_flush w k).symm

end Flushable

/-! ### Whole runs -/

/-- What callers do with a flushable store; batches of the store are numbered. -/
inductive StoreOp (α : Type) where
  | put (key : Bytes) (value : α)
  | delete (key : Bytes)
  | batchPut (batch : ℕ) (key : Bytes) (value : α)
  | batchDelete (batch : ℕ) (key : Bytes)
  | batchWrite (batch : ℕ)
  | batchReset (batch : ℕ)
  | flush
  | dropNotFlushed

/-- A flushable store and its batches. -/
structure Overlay (α : Type) where
  db : Flushable Bytes α
  batches : ℕ → List (Bytes × Option α)

/-- A plain map, the map at the last flush, and the batches. -/
structure PlainStore (α : Type) where
  live : ExtTreeMap Bytes α
  flushed : ExtTreeMap Bytes α
  batches : ℕ → List (Bytes × Option α)

variable {α : Type}

namespace Overlay

/-- `flushable.Wrap`, with no batch. -/
def wrap (db : ExtTreeMap Bytes α) : Overlay α := ⟨.wrap db, fun _ => []⟩

/-- An operation; no write of a flush fails. -/
def step (valueSize : ValueSize Bytes α) (s : Overlay α) : StoreOp α → Overlay α
  | .put key value => { s with db := s.db.put key value }
  | .delete key => { s with db := s.db.delete key }
  | .batchPut b key value =>
    { s with batches := Function.update s.batches b (s.batches b ++ [(key, some value)]) }
  | .batchDelete b key =>
    { s with batches := Function.update s.batches b (s.batches b ++ [(key, none)]) }
  | .batchWrite b => { s with db := s.db.writeCacheBatch (s.batches b) }
  | .batchReset b => { s with batches := Function.update s.batches b [] }
  | .flush => { s with db := (s.db.flushBatches valueSize fun _ => false).2 }
  | .dropNotFlushed => { s with db := s.db.dropNotFlushed }

end Overlay

namespace PlainStore

/-- The map that is wrapped. -/
def wrap (db : ExtTreeMap Bytes α) : PlainStore α := ⟨db, db, fun _ => []⟩

/-- An operation on the map. -/
def step (m : PlainStore α) : StoreOp α → PlainStore α
  | .put key value => { m with live := m.live.insert key value }
  | .delete key => { m with live := m.live.erase key }
  | .batchPut b key value =>
    { m with batches := Function.update m.batches b (m.batches b ++ [(key, some value)]) }
  | .batchDelete b key =>
    { m with batches := Function.update m.batches b (m.batches b ++ [(key, none)]) }
  | .batchWrite b => { m with live := applyWrites m.live (m.batches b) }
  | .batchReset b => { m with batches := Function.update m.batches b [] }
  | .flush => { m with flushed := m.live }
  | .dropNotFlushed => { m with live := m.flushed }

end PlainStore

/-- The store is an overlay of the map at the last flush. -/
structure Refines (s : Overlay α) (m : PlainStore α) : Prop where
  get : ∀ k, s.db.get k = m.live[k]?
  underlying : s.db.underlying = m.flushed
  batches : s.batches = m.batches

lemma refines_wrap (db : ExtTreeMap Bytes α) : Refines (.wrap db) (.wrap db) :=
  ⟨Flushable.get_wrap db, rfl, rfl⟩

/-- The flushable store behaves as one map. -/
lemma Refines.step {s : Overlay α} {m : PlainStore α} (h : Refines s m)
    (valueSize : ValueSize Bytes α) (op : StoreOp α) :
    Refines (s.step valueSize op) (m.step op) := by
  have hb := h.batches
  cases op with
  | put key value =>
    refine ⟨fun k => ?_, h.underlying, hb⟩
    rw [Overlay.step, Flushable.get_put, h.get, PlainStore.step, ExtTreeMap.getElem?_insert]
    simp [@eq_comm _ k]
  | delete key =>
    refine ⟨fun k => ?_, h.underlying, hb⟩
    rw [Overlay.step, Flushable.get_delete, h.get, PlainStore.step, ExtTreeMap.getElem?_erase]
    simp [@eq_comm _ k]
  | batchPut b key value =>
    exact ⟨h.get, h.underlying, by simp only [Overlay.step, PlainStore.step, hb]⟩
  | batchDelete b key =>
    exact ⟨h.get, h.underlying, by simp only [Overlay.step, PlainStore.step, hb]⟩
  | batchWrite b =>
    refine ⟨fun k => ?_, ?_, hb⟩
    · rw [Overlay.step, hb]
      exact Flushable.get_writeCacheBatch s.db h.get _ k
    · exact (Flushable.underlying_writeCacheBatch _ _).trans h.underlying
  | batchReset b => exact ⟨h.get, h.underlying, by simp only [Overlay.step, PlainStore.step, hb]⟩
  | flush =>
    simp only [Overlay.step, Flushable.flushBatches_of_not_fails valueSize fun _ => rfl]
    refine ⟨fun k => by rw [Flushable.get_flush]; exact h.get k, ?_, hb⟩
    exact ExtTreeMap.ext_getElem? fun k => (Flushable.underlying_flush s.db k).trans (h.get k)
  | dropNotFlushed =>
    refine ⟨fun k => ?_, h.underlying, hb⟩
    rw [Overlay.step, Flushable.get_dropNotFlushed, h.underlying]
    rfl

lemma Refines.run {s : Overlay α} {m : PlainStore α} (h : Refines s m)
    (valueSize : ValueSize Bytes α) (ops : List (StoreOp α)) :
    Refines (ops.foldl (Overlay.step valueSize) s) (ops.foldl PlainStore.step m) := by
  induction ops generalizing s m with
  | nil => exact h
  | cons op ops ih => exact ih (h.step valueSize op)

/-- Through any operations, `Get`, `Has` and all iterators answer as the plain map does, its pairs
are in order, and the wrapped store is the map of the last flush. -/
theorem overlay_answers (valueSize : ValueSize Bytes α) (db : ExtTreeMap Bytes α)
    (ops : List (StoreOp α)) :
    (ops.foldl (Overlay.step valueSize) (.wrap db)).db.Answers
        (ops.foldl PlainStore.step (.wrap db)).live ∧
      SortedPairs (ops.foldl PlainStore.step (.wrap db)).live.toList ∧
      (ops.foldl (Overlay.step valueSize) (.wrap db)).db.underlying =
        (ops.foldl PlainStore.step (.wrap db)).flushed :=
  have h := (refines_wrap db).run valueSize ops
  ⟨Flushable.answers_iff.mpr h.get, sortedPairs_toList _, h.underlying⟩

/-! ### Failed flushes -/

namespace Flushable

/-- The batches that were written of a flush that failed, or before the last batch. -/
def writtenBatches (valueSize : ValueSize Bytes α) (fails : ℕ → Bool)
    (w : Flushable Bytes α) : Bool × ExtTreeMap Bytes α :=
  writeBatches fails 0 (fillBatches valueSize w.modified.toList []).1 w.underlying

/-- The batch that fails is not the last one, or the last batch changes nothing. -/
def FailsEarly (valueSize : ValueSize Bytes α) (fails : ℕ → Bool)
    (w : Flushable Bytes α) : Prop :=
  (w.writtenBatches valueSize fails).1 = false ∨
    applyWrites (w.writtenBatches valueSize fails).2
      (fillBatches valueSize w.modified.toList []).2 = (w.writtenBatches valueSize fails).2

lemma get_applyWrites {w : Flushable Bytes α} {ws : List (Bytes × Option α)}
    (h : ∀ kv ∈ ws, kv ∈ w.modified.toList) (k : Bytes) :
    (⟨applyWrites w.underlying ws, w.modified⟩ : Flushable Bytes α).get k = w.get k := by
  unfold get
  cases hk : w.modified[k]? with
  | some v => rfl
  | none =>
    refine getElem?_applyWrites_of_notMem (fun kv hkv heq => ?_) _
    rw [← heq, ExtTreeMap.mem_toList_iff_getElem?_eq_some.mp (h kv hkv)] at hk
    cases hk

/-- What was written is part of the writes; it is all but the last batch if no write failed. -/
lemma writtenBatches_spec (valueSize : ValueSize Bytes α) (fails : ℕ → Bool)
    (w : Flushable Bytes α) :
    (∃ ws, (∀ kv ∈ ws, kv ∈ w.modified.toList) ∧
        (w.writtenBatches valueSize fails).2 = applyWrites w.underlying ws) ∧
      ((w.writtenBatches valueSize fails).1 = true →
        applyWrites (w.writtenBatches valueSize fails).2
          (fillBatches valueSize w.modified.toList []).2 = w.flush.underlying) := by
  obtain ⟨m, hdb, hall⟩ := writeBatches_spec fails 0
    (fillBatches valueSize w.modified.toList []).1 w.underlying
  have hflat := flatten_fillBatches valueSize w.modified.toList []
  refine ⟨⟨_, fun kv hkv => ?_, hdb⟩, fun h => ?_⟩
  · rw [List.nil_append] at hflat
    rw [← hflat]
    obtain ⟨b, hb, hkv⟩ := List.mem_flatten.mp hkv
    exact List.mem_append_left _ (List.mem_flatten.mpr ⟨b, List.mem_of_mem_take hb, hkv⟩)
  · rw [writtenBatches, hdb, hall h, List.take_length, ← applyWrites_append, hflat]
    rfl

section

variable {valueSize : ValueSize Bytes α} {fails : ℕ → Bool} {w : Flushable Bytes α}
  (h : (w.flushBatches valueSize fails).1 = false)
include h

lemma flushBatches_of_failed :
    (w.flushBatches valueSize fails).2 = ⟨(w.writtenBatches valueSize fails).2,
      if (w.writtenBatches valueSize fails).1 then ∅ else w.modified⟩ := by
  unfold flushBatches at h ⊢
  obtain ⟨ok, db, hr⟩ : ∃ ok db, writeBatches fails 0
    (fillBatches valueSize w.modified.toList []).1 w.underlying = (ok, db) := ⟨_, _, rfl⟩
  simp only [writtenBatches, hr] at h ⊢
  cases ok with
  | false => rfl
  | true =>
    simp only at h ⊢
    split_ifs at h ⊢ with hf
    rfl

/-- A flush that failed keeps all answers exactly if it failed early. -/
lemma get_flushBatches_iff :
    (∀ k, (w.flushBatches valueSize fails).2.get k = w.get k) ↔ w.FailsEarly valueSize fails := by
  obtain ⟨⟨ws, hws, hdb⟩, hlast⟩ := writtenBatches_spec valueSize fails w
  rw [flushBatches_of_failed h, FailsEarly]
  cases hok : (w.writtenBatches valueSize fails).1 with
  | false =>
    simp only [Bool.false_eq_true, if_false, true_or, iff_true]
    rw [hdb]
    exact get_applyWrites hws
  | true =>
    simp only [if_true, Bool.true_eq_false, false_or]
    rw [hlast hok]
    constructor
    · intro hget
      refine ExtTreeMap.ext_getElem? fun k => ?_
      rw [underlying_flush, ← hget]
      simp [get]
    · intro heq k
      rw [← underlying_flush w, heq]
      simp [get]

end

/-- After a flush that failed early, all answers are as before, and a later flush that succeeds
brings the wrapped store to where the first one would have; otherwise some write is lost. -/
theorem flushBatches_failed_iff (valueSize : ValueSize Bytes α) (fails : ℕ → Bool)
    (w : Flushable Bytes α) (h : (w.flushBatches valueSize fails).1 = false) :
    w.FailsEarly valueSize fails ↔
      (∀ live, w.Answers live → (w.flushBatches valueSize fails).2.Answers live) ∧
        ∀ valueSize' fails',
          ((w.flushBatches valueSize fails).2.flushBatches valueSize' fails').1 = true →
          ((w.flushBatches valueSize fails).2.flushBatches valueSize' fails').2.underlying =
            (w.flushBatches valueSize fun _ => false).2.underlying := by
  rw [← get_flushBatches_iff h]
  constructor
  · intro hget
    refine ⟨fun live hl => answers_iff.mpr fun k => (hget k).trans (hl.get k), ?_⟩
    intro valueSize' fails' hok
    rw [flushBatches_of_ok hok, flushBatches_of_not_fails valueSize fun _ => rfl]
    refine ExtTreeMap.ext_getElem? fun k => ?_
    rw [underlying_flush, underlying_flush, hget]
  · rintro ⟨hans, -⟩ k
    rw [(hans _ (answers_flush w)).get, underlying_flush]

/-- A store with one write on top. -/
def onePut : Flushable Bytes ℕ := (wrap ∅).put [1] 7

/-- Of two batches the first fails: the write of the key is kept. -/
theorem flushBatches_failed_iff_first :
    (onePut.flushBatches (fun _ => idealBatchSize + 1) (· == 0)).1 = false ∧
      onePut.FailsEarly (fun _ => idealBatchSize + 1) (· == 0) ∧
      (onePut.flushBatches (fun _ => idealBatchSize + 1) (· == 0)).2.Answers
        onePut.flush.underlying :=
  have hfail : (onePut.flushBatches (fun _ => idealBatchSize + 1) (· == 0)).1 = false := by
    decide +kernel
  have hearly : onePut.FailsEarly (fun _ => idealBatchSize + 1) (· == 0) :=
    Or.inl (by decide +kernel)
  ⟨hfail, hearly, ((flushBatches_failed_iff _ _ _ hfail).mp hearly).1 _ (answers_flush _)⟩

/-- The only batch is the last one: if it fails, the key is gone, and a later flush does not bring it
back. -/
theorem onePut_lost :
    (onePut.flushBatches (fun _ => 1) (· == 0)).1 = false ∧ onePut.get [1] = some 7 ∧
      (onePut.flushBatches (fun _ => 1) (· == 0)).2.get [1] = none ∧
      ((onePut.flushBatches (fun _ => 1) (· == 0)).2.flushBatches (fun _ => 1)
        fun _ => false).2.underlying[([1] : Bytes)]? = none ∧
      (onePut.flushBatches (fun _ => 1) fun _ => false).2.underlying[([1] : Bytes)]? = some 7 := by
  decide +kernel

end Flushable

end Lachesis
