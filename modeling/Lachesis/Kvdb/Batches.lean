import Lachesis.Kvdb.Flushable

/-!
# Writing in batches

A flushable store hands its writes to the wrapped store in batches, of which any may fail, and gives
out batches of its own.
-/

namespace Lachesis

open Lachesis.Core Std

/-- `ethdb.IdealBatchSize` -/
def idealBatchSize : ℕ := 100 * 1024

/-- `ValueSize` of the wrapped store's batches. -/
abbrev ValueSize (κ α : Type) := List (κ × Option α) → ℕ

namespace Flushable

variable {κ α : Type} [Ord κ] [TransOrd κ]

def has (w : Flushable κ α) (k : κ) : Bool :=
  match w.modified[k]? with
  | some v => v.isSome
  | none => k ∈ w.underlying

def delete (w : Flushable κ α) (k : κ) : Flushable κ α :=
  { w with modified := w.modified.insert k none }

/-- `cacheBatch.Write` -/
def writeCacheBatch (w : Flushable κ α) (batch : List (κ × Option α)) : Flushable κ α :=
  batch.foldl (fun w kv => match kv.2 with
    | none => w.delete kv.1
    | some v => w.put kv.1 v) w

lemma underlying_writeCacheBatch (w : Flushable κ α) (batch : List (κ × Option α)) :
    (w.writeCacheBatch batch).underlying = w.underlying := by
  induction batch generalizing w with
  | nil => rfl
  | cons kv batch ih =>
    rw [writeCacheBatch, List.foldl_cons, ← writeCacheBatch, ih]
    cases kv.2 <;> rfl

/-! ### Flushing -/

/-- The loop of `flush` over the writes: the batches that are full, and the one that is left. -/
def fillBatches (valueSize : ValueSize κ α) :
    List (κ × Option α) → List (κ × Option α) → List (List (κ × Option α)) × List (κ × Option α)
  | [], batch => ([], batch)
  | w :: ws, batch =>
    if valueSize (batch ++ [w]) > idealBatchSize then
      let rest := fillBatches valueSize ws []
      ((batch ++ [w]) :: rest.1, rest.2)
    else fillBatches valueSize ws (batch ++ [w])

/-- The full batches are written until one fails: whether all were written, and the store. `fails n`
says that write `n` of the flush returns an error, and leaves the store as it is. -/
def writeBatches (fails : ℕ → Bool) :
    ℕ → List (List (κ × Option α)) → ExtTreeMap κ α → Bool × ExtTreeMap κ α
  | _, [], db => (true, db)
  | n, batch :: batches, db =>
    if fails n then (false, db) else writeBatches fails (n + 1) batches (applyWrites db batch)

/-- `Flushable.Flush` with its batches: whether it succeeds. The writes are cleared before the last
batch is written. -/
def flushBatches (valueSize : ValueSize κ α) (fails : ℕ → Bool) (w : Flushable κ α) :
    Bool × Flushable κ α :=
  let batches := fillBatches valueSize w.modified.toList []
  match writeBatches fails 0 batches.1 w.underlying with
  | (false, db) => (false, ⟨db, w.modified⟩)
  | (true, db) =>
    if fails batches.1.length then (false, ⟨db, ∅⟩) else (true, ⟨applyWrites db batches.2, ∅⟩)

omit [Ord κ] [TransOrd κ] in
lemma flatten_fillBatches (valueSize : ValueSize κ α) (ws batch : List (κ × Option α)) :
    (fillBatches valueSize ws batch).1.flatten ++ (fillBatches valueSize ws batch).2 =
      batch ++ ws := by
  induction ws generalizing batch with
  | nil => simp [fillBatches]
  | cons w ws ih =>
    rw [fillBatches]
    split_ifs with h
    · simpa using ih []
    · simpa using ih (batch ++ [w])

lemma applyWrites_append (db : ExtTreeMap κ α) (ws ws' : List (κ × Option α)) :
    applyWrites db (ws ++ ws') = applyWrites (applyWrites db ws) ws' :=
  List.foldl_append

lemma writeBatches_spec (fails : ℕ → Bool) (n : ℕ) (batches : List (List (κ × Option α)))
    (db : ExtTreeMap κ α) :
    ∃ m, (writeBatches fails n batches db).2 = applyWrites db (batches.take m).flatten ∧
      ((writeBatches fails n batches db).1 = true → m = batches.length) := by
  induction batches generalizing n db with
  | nil => exact ⟨0, by simp [writeBatches, applyWrites], by simp⟩
  | cons batch batches ih =>
    rw [writeBatches]
    split_ifs with h
    · exact ⟨0, by simp [applyWrites], by simp⟩
    · obtain ⟨m, hdb, hok⟩ := ih (n + 1) (applyWrites db batch)
      refine ⟨m + 1, ?_, fun h => by simp [hok h]⟩
      rw [hdb, List.take_succ_cons, List.flatten_cons, applyWrites_append]

lemma writeBatches_of_not_fails {fails : ℕ → Bool} (n : ℕ) {batches : List (List (κ × Option α))}
    (h : ∀ m, fails m = false) (db : ExtTreeMap κ α) :
    writeBatches fails n batches db = (true, applyWrites db batches.flatten) := by
  induction batches generalizing n db with
  | nil => rfl
  | cons batch batches ih =>
    rw [writeBatches, if_neg (by simp [h n]), ih, List.flatten_cons, applyWrites_append]

/-- A flush that succeeds writes all there is. -/
lemma flushBatches_of_ok {valueSize : ValueSize κ α} {fails : ℕ → Bool}
    {w : Flushable κ α} (h : (w.flushBatches valueSize fails).1 = true) :
    (w.flushBatches valueSize fails).2 = w.flush := by
  have hflat := flatten_fillBatches valueSize w.modified.toList []
  obtain ⟨m, hdb, hall⟩ := writeBatches_spec fails 0
    (fillBatches valueSize w.modified.toList []).1 w.underlying
  unfold flushBatches at h ⊢
  obtain ⟨ok, db, hr⟩ : ∃ ok db, writeBatches fails 0
    (fillBatches valueSize w.modified.toList []).1 w.underlying = (ok, db) := ⟨_, _, rfl⟩
  simp only [hr] at h hdb hall ⊢
  cases ok with
  | false => simp at h
  | true =>
    simp only at h ⊢
    split_ifs at h ⊢ with hf
    rw [hall rfl, List.take_length] at hdb
    rw [flush, hdb, ← applyWrites_append, hflat, List.nil_append]

lemma flushBatches_of_not_fails (valueSize : ValueSize κ α) {fails : ℕ → Bool}
    (h : ∀ n, fails n = false) (w : Flushable κ α) :
    w.flushBatches valueSize fails = (true, w.flush) := by
  have hok : (w.flushBatches valueSize fails).1 = true := by
    simp [flushBatches, writeBatches_of_not_fails 0 h, h]
  exact Prod.ext hok (flushBatches_of_ok hok)

/-! ### Reads -/

lemma has_eq (w : Flushable κ α) (k : κ) : w.has k = (w.get k).isSome := by
  unfold has get
  cases w.modified[k]? with
  | some v => rfl
  | none =>
    rw [Bool.eq_iff_iff, decide_eq_true_iff]
    exact ExtTreeMap.mem_iff_isSome_getElem?

variable [LawfulEqOrd κ]

lemma get_delete [DecidableEq κ] (w : Flushable κ α) (k k' : κ) :
    (w.delete k).get k' = if k' = k then none else w.get k' := by
  simp only [get, delete, ExtTreeMap.getElem?_insert, LawfulEqCmp.compare_eq_iff_eq,
    @eq_comm _ k]
  split_ifs <;> rfl

lemma get_writeCacheBatch (w : Flushable κ α) {db : ExtTreeMap κ α} (h : ∀ k, w.get k = db[k]?)
    (batch : List (κ × Option α)) (k : κ) :
    (w.writeCacheBatch batch).get k = (applyWrites db batch)[k]? := by
  classical
  induction batch generalizing w db with
  | nil => exact h k
  | cons kv batch ih =>
    rw [writeCacheBatch, List.foldl_cons, ← writeCacheBatch, applyWrites, List.foldl_cons,
      ← applyWrites]
    refine ih _ fun k' => ?_
    rw [getElem?_applyWrite]
    obtain ⟨x, v⟩ := kv
    cases v <;> simp [get_put, get_delete, h, @eq_comm _ k']

end Flushable

end Lachesis
