import Lachesis.Core.Cache
import Lachesis.Core.Tally
import Lachesis.Inter.Event

/-!
# Transactions that are not confirmed yet

A validator does not originate a transaction that is already in an event, nor another one of the same
sender. The buffer keeps the hashes of transactions that are in events but not in blocks, with their
senders, in a least-recently-used cache of a fixed size. Beside it stands a counter for each sender,
which the cache lowers when it drops a hash, for whatever reason.
-/

namespace Lachesis

open Std Lachesis.Core

/-- `common.Address`: 20 bytes as a number. -/
abbrev Address := ℕ

/-- `occuredtxs.buffer`, over the cache `C`. -/
structure TxsRing {size : ℕ} (C : EvictCache Hash Address size) where
  senders : C.State
  fromNum : ExtTreeMap Address ℤ

namespace TxsRing

variable {size : ℕ} {C : EvictCache Hash Address size}

/-- The ring of `New`. -/
def new : TxsRing C := ⟨C.empty, ∅⟩

/-- `buffer.decreaseSender` -/
def decreaseSender (fromNum : ExtTreeMap Address ℤ) (sender : Address) : ExtTreeMap Address ℤ :=
  let was := fromNum.getD sender 0
  if was ≤ 1 then fromNum.erase sender else fromNum.insert sender (was - 1)

/-- The calls of the eviction callback for these entries. -/
def onEvict (fromNum : ExtTreeMap Address ℤ) (evicted : List (Hash × Address)) :
    ExtTreeMap Address ℤ :=
  evicted.foldl (fun fromNum entry => decreaseSender fromNum entry.2) fromNum

/-- `buffer.Add` -/
def add (ring : TxsRing C) (hash : Hash) (sender : Address) : TxsRing C :=
  if (C.peek ring.senders hash).isSome then ring
  else
    let fromNum := onEvict ring.fromNum (C.onAdd ring.senders hash sender)
    ⟨C.add ring.senders hash sender, fromNum.insert sender (fromNum.getD sender 0 + 1)⟩

/-- `buffer.Delete` -/
def delete (ring : TxsRing C) (hash : Hash) : TxsRing C :=
  ⟨C.remove ring.senders hash, onEvict ring.fromNum (C.onRemove ring.senders hash)⟩

/-- The ring after `Purge` of its cache. -/
def purge (ring : TxsRing C) : TxsRing C :=
  ⟨C.purge ring.senders, onEvict ring.fromNum (C.onPurge ring.senders)⟩

/-- `buffer.Clear` -/
def clear (ring : TxsRing C) : TxsRing C := { ring.purge with fromNum := ∅ }

/-- `buffer.Get` -/
def get (ring : TxsRing C) (hash : Hash) : Option Address := C.peek ring.senders hash

/-- `buffer.GetTxsNum` -/
def getTxsNum (ring : TxsRing C) (sender : Address) : ℤ := ring.fromNum.getD sender 0

section Buffer

variable {τ ε : Type} (hash : τ → Hash) (senderOf : τ → Except ε Address)

/-- `Buffer.CollectNotConfirmedTxs`, with the error at which it stops. -/
def collectNotConfirmedTxs : List τ → TxsRing C → Option ε × TxsRing C
  | [], ring => (none, ring)
  | tx :: txs, ring =>
    match senderOf tx with
    | .error err => (some err, ring)
    | .ok sender => collectNotConfirmedTxs txs (ring.add (hash tx) sender)

/-- `Buffer.CollectConfirmedTxs` -/
def collectConfirmedTxs (txs : List τ) (ring : TxsRing C) : TxsRing C :=
  txs.foldl (fun ring tx => ring.delete (hash tx)) ring

/-- `Buffer.MayBeConflicted` -/
def mayBeConflicted (ring : TxsRing C) (sender : Address) (txHash : Hash) : Bool :=
  (ring.get txHash).isSome || ring.getTxsNum sender ≠ 0

/-- The ring after any calls of the buffer. -/
inductive Run : TxsRing C → Prop
  | new : Run new
  | collectNotConfirmed {ring : TxsRing C} (txs : List τ) (h : Run ring) :
      Run (ring.collectNotConfirmedTxs hash senderOf txs).2
  | collectConfirmed {ring : TxsRing C} (txs : List τ) (h : Run ring) :
      Run (ring.collectConfirmedTxs hash txs)
  | clear {ring : TxsRing C} (h : Run ring) : Run ring.clear

end Buffer

/-- How many hashes of the sender are in the buffer. -/
def occured (ring : TxsRing C) (sender : Address) : ℕ := (C.holders ring.senders sender).card

/-! ### The counters follow the buffer -/

section Counted

variable {ring : TxsRing C} {fromNum : ExtTreeMap Address ℤ} {n : Address → ℕ}

/-- The counter of each sender is the number of their hashes. -/
def Counted (ring : TxsRing C) : Prop := Counts ring.fromNum ring.occured

lemma decreaseSender_eq_decrement (sender : Address) :
    decreaseSender fromNum sender = decrement fromNum sender := by
  apply ExtTreeMap.ext_getElem?
  intro a
  simp only [decreaseSender, decrement, ExtTreeMap.getD_insert_self]
  split_ifs with hone hzero hzero
  · by_cases ha : sender = a
    · simp [ha]
    · simp [ExtTreeMap.getElem?_erase, ExtTreeMap.getElem?_insert, ha]
  · exact absurd (Int.sub_nonpos_of_le hone) hzero
  · exact absurd (Int.le_of_sub_nonpos hzero) hone
  · rfl

lemma counts_onEvict {n' : Address → ℕ} {evicted : List (Hash × Address)} (h : Counts fromNum n)
    (hn : ∀ sender, n' sender + evicted.countP (·.2 = sender) = n sender) :
    Counts (onEvict fromNum evicted) n' := by
  have heq : onEvict fromNum evicted =
      evicted.foldl (fun counts entry => decrement counts entry.2) fromNum := by
    simp only [onEvict, decreaseSender_eq_decrement]
  rw [heq]
  exact h.decrement_all hn

lemma occured_eq_zero {senders : C.State} (h : ∀ hash, C.peek senders hash = none) :
    (⟨senders, fromNum⟩ : TxsRing C).occured = fun _ => 0 := by
  funext sender
  apply Finset.card_eq_zero.mpr
  apply Finset.eq_empty_of_forall_notMem
  intro hash hmem
  simp [h] at hmem

lemma Counted.new : Counted (new : TxsRing C) := by
  rw [Counted, TxsRing.new, occured_eq_zero C.peek_empty]
  exact counts_empty

lemma Counted.clear : Counted ring.clear := by
  rw [Counted, TxsRing.clear, purge, occured_eq_zero fun _ => C.peek_purge]
  exact counts_empty

/-- The hashes of a sender after `Add` are the old ones that are still there, and the new one. -/
lemma holders_add (hsize : 0 < size) {senders : C.State} {hash : Hash} {sender : Address}
    (hnone : C.peek senders hash = none) (a : Address) :
    (C.holders (C.add senders hash sender) a).card =
      ((C.holders senders a).filter fun k => C.peek (C.add senders hash sender) k ≠ none).card +
        if a = sender then 1 else 0 := by
  have hmem : ∀ k, k ∈ C.holders (C.add senders hash sender) a ↔ (k = hash ∧ a = sender) ∨
      k ∈ (C.holders senders a).filter fun k => C.peek (C.add senders hash sender) k ≠ none := by
    intro k
    rw [LruCache.mem_holders, Finset.mem_filter, LruCache.mem_holders]
    by_cases hk : k = hash
    · subst hk
      simp [C.peek_add_self hsize, hnone, eq_comm]
    · simp only [hk, false_and, false_or]
      constructor
      · exact fun h => ⟨C.peek_of_peek_add hk h, by simp [h]⟩
      · rintro ⟨hold, hkept⟩
        obtain ⟨v, hv⟩ := Option.ne_none_iff_exists'.mp hkept
        rw [hv, ← hold]
        exact (C.peek_of_peek_add hk hv).symm
  split_ifs with ha
  · rw [← Finset.card_insert_of_notMem (a := hash) (by simp [hnone])]
    apply congrArg Finset.card
    ext k
    rw [hmem, Finset.mem_insert]
    simp [ha]
  · rw [add_zero]
    apply congrArg Finset.card
    ext k
    rw [hmem]
    simp [ha]

/-- The new hash is never the one that is evicted, so the callback only sees old entries. -/
lemma Counted.add (hsize : 0 < size) (h : Counted ring) (hash : Hash) (sender : Address) :
    Counted (ring.add hash sender) := by
  unfold TxsRing.add
  split_ifs with hhas
  · exact h
  · have hnone : C.peek ring.senders hash = none := by simpa using hhas
    have hinc := (counts_onEvict h fun a => LruCache.card_kept_add_countP
      (C.reports_add (k := hash) (v := sender) hsize)).increment sender
    refine Eq.mp (congrArg (Counts _) ?_) hinc
    funext a
    rw [occured, holders_add hsize hnone]
    by_cases ha : a = sender
    · simp [ha]
    · simp [ha]

lemma Counted.delete (h : Counted ring) (hash : Hash) : Counted (ring.delete hash) := by
  apply counts_onEvict h
  intro a
  have hsplit := LruCache.card_kept_add_countP (v := a)
    (C.reports_remove (s := ring.senders) (k := hash))
  have hkept : C.holders (C.remove ring.senders hash) a =
      (C.holders ring.senders a).filter fun k => C.peek (C.remove ring.senders hash) k ≠ none := by
    ext k
    rw [Finset.mem_filter, LruCache.mem_holders, LruCache.mem_holders, C.peek_remove]
    by_cases hk : k = hash
    · simp [hk]
    · simpa [hk] using fun hpeek => by simp [hpeek]
  rw [← hkept] at hsplit
  exact hsplit

variable {τ ε : Type} {hash : τ → Hash} {senderOf : τ → Except ε Address}

lemma Counted.collectNotConfirmedTxs (hsize : 0 < size) (txs : List τ) (h : Counted ring) :
    Counted (ring.collectNotConfirmedTxs hash senderOf txs).2 := by
  induction txs generalizing ring with
  | nil => exact h
  | cons tx txs ih =>
    rw [TxsRing.collectNotConfirmedTxs]
    split
    · exact h
    · exact ih (h.add hsize _ _)

lemma Counted.collectConfirmedTxs (txs : List τ) (h : Counted ring) :
    Counted (ring.collectConfirmedTxs hash txs) := by
  induction txs generalizing ring with
  | nil => exact h
  | cons tx txs ih => exact ih (h.delete _)

lemma Run.counted (hsize : 0 < size) (h : Run hash senderOf ring) : Counted ring := by
  induction h with
  | new => exact .new
  | collectNotConfirmed txs h ih => exact ih.collectNotConfirmedTxs hsize txs
  | collectConfirmed txs h ih => exact ih.collectConfirmedTxs txs
  | clear h ih => exact .clear

lemma Counted.getTxsNum_ne_zero_iff (h : Counted ring) {sender : Address} :
    ring.getTxsNum sender ≠ 0 ↔ ∃ txHash, C.peek ring.senders txHash = some sender := by
  rw [getTxsNum, h.getD, Nat.cast_ne_zero, occured, Finset.card_ne_zero]
  exact exists_congr fun txHash => LruCache.mem_holders

/-- After any calls each sender's counter is the number of their hashes in the buffer, absent if
there are none, so `MayBeConflicted` answers by what the buffer holds. -/
theorem Run.counters_exact (hsize : 0 < size) (h : Run hash senderOf ring) :
    (∀ sender : Address, ring.fromNum[sender]? =
      if ring.occured sender = 0 then none else some (ring.occured sender : ℤ)) ∧
    ∀ (sender : Address) (txHash : Hash), ring.mayBeConflicted sender txHash ↔
      (∃ other, C.peek ring.senders txHash = some other) ∨
        ∃ other, C.peek ring.senders other = some sender := by
  have hcounted := h.counted hsize
  constructor
  · exact hcounted
  · intro sender txHash
    rw [mayBeConflicted, Bool.or_eq_true, get, Option.isSome_iff_exists, decide_eq_true_iff,
      hcounted.getTxsNum_ne_zero_iff]

end Counted

/-! ### A buffer that overflows -/

/-- Three transactions of one sender go through a buffer for two, and the second is confirmed. -/
def overflowed : TxsRing (Lru.cache Hash Address 2) :=
  ((new.collectNotConfirmedTxs (ε := Empty) id (fun _ => .ok 7) [1, 2, 3]).2).collectConfirmedTxs
    id [2]

theorem counters_exact_overflowed :
    overflowed.fromNum[7]? = some 1 ∧ overflowed.mayBeConflicted 7 1 = true := by
  have h : Run (ε := Empty) id (fun _ => .ok 7) overflowed :=
    .collectConfirmed _ (.collectNotConfirmed _ .new)
  obtain ⟨hcount, hconflict⟩ := h.counters_exact (by decide)
  refine ⟨(hcount 7).trans (by decide +kernel), (hconflict 7 1).mpr (Or.inr ⟨3, ?_⟩)⟩
  decide +kernel

end TxsRing

end Lachesis
