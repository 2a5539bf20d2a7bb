import Lachesis.Kvdb.Overlay
import Mathlib.Data.List.Pairwise

/-!
# Tables

Several tables share one store: each puts its own prefix in front of its keys, and takes it off the
keys that its iterators return. Prefixes are accepted if they differ when all are cut to the length
of the shortest, so that none of them begins another.
-/

namespace Lachesis

open Lachesis.Core Std

def prefixed (key pre : Bytes) : Bytes := pre ++ key

def noPrefix (key pre : Bytes) : Bytes :=
  if key.length < pre.length then key else key.drop pre.length

@[simp] lemma noPrefix_prefixed (key pre : Bytes) : noPrefix (prefixed key pre) pre = key := by
  simp [noPrefix, prefixed]

@[simp] lemma isPrefixOf_prefixed (key pre : Bytes) : pre.isPrefixOf (prefixed key pre) := by
  simp [prefixed]

lemma prefixed_noPrefix {key pre : Bytes} (h : pre.isPrefixOf key) :
    prefixed (noPrefix key pre) pre = key := by
  obtain ⟨k, rfl⟩ := List.isPrefixOf_iff_prefix.mp h
  exact congrArg (prefixed · pre) (noPrefix_prefixed k pre)

lemma prefixed_inj {key key' pre : Bytes} : prefixed key pre = prefixed key' pre ↔ key = key' :=
  List.append_right_inj pre

/-- Prefixed keys are in the order of the keys. -/
lemma compare_prefixed (key key' pre : Bytes) :
    compare (prefixed key pre) (prefixed key' pre) = compare key key' := by
  induction pre with
  | nil => rfl
  | cons b pre ih =>
    rw [prefixed, prefixed, List.cons_append, List.cons_append, List.compare_cons_cons, compare_self,
      Ordering.eq_then]
    exact ih

lemma prefixed_isPrefixOf_prefixed (key key' pre : Bytes) :
    (prefixed key pre).isPrefixOf (prefixed key' pre) = key.isPrefixOf key' := by
  rw [Bool.eq_iff_iff, List.isPrefixOf_iff_prefix, List.isPrefixOf_iff_prefix, prefixed, prefixed,
    List.prefix_append_right_inj]

/-! ### Iterators -/

/-- `table.iterator` -/
structure TableIterator (α : Type) where
  it : Iterator α
  pre : Bytes

namespace TableIterator

variable {α : Type}

/-- `iterator.Next` of a table: the wrapped iterator moves on to a key with the prefix. -/
def next : (fuel : ℕ) → TableIterator α → Option (Bool × TableIterator α)
  | 0, _ => none
  | fuel + 1, t =>
    match t.it.next with
    | none => none
    | some (false, it) => some (false, { t with it })
    | some (true, it) =>
      if (it.key.any fun key => t.pre.isPrefixOf key) then some (true, { t with it })
      else next fuel { t with it }

/-- The pairs that `Next` gives until it returns false, for at most `fuel` calls. -/
def drain (limit : ℕ) : (fuel : ℕ) → TableIterator α → Option (List (Bytes × α))
  | 0, _ => none
  | fuel + 1, t =>
    match t.next limit with
    | none => none
    | some (false, _) => some []
    | some (true, t) =>
      match t.it.key, t.it.val with
      | some key, some val => (drain limit fuel t).map ((noPrefix key t.pre, val) :: ·)
      | _, _ => none

/-- The pairs of the wrapped iterator with the prefix, without it. -/
def strip (pre : Bytes) (pairs : List (Bytes × α)) : List (Bytes × α) :=
  (pairs.filter fun pair => pre.isPrefixOf pair.1).map fun pair => (noPrefix pair.1 pre, pair.2)

variable {it : Iterator α} {t : TableIterator α} {pairs : List (Bytes × α)} {pair : Bytes × α}
  {n limit fuel : ℕ}

lemma next_of_drain_nil (h : it.drain n = some []) : ∃ it', it.next = some (false, it') := by
  cases n with
  | zero => simp [Iterator.drain] at h
  | succ n =>
    rw [Iterator.drain] at h
    split at h
    · simp at h
    · exact ⟨_, ‹_›⟩
    · split at h
      · simp at h
      · simp at h

lemma next_of_drain_cons (h : it.drain n = some (pair :: pairs)) :
    ∃ it' n', it.next = some (true, it') ∧ it'.key = some pair.1 ∧ it'.val = some pair.2 ∧
      it'.drain n' = some pairs := by
  cases n with
  | zero => simp [Iterator.drain] at h
  | succ n =>
    rw [Iterator.drain] at h
    split at h
    · simp at h
    · simp at h
    · split at h
      · rename_i it' hnext _ _ key val hkey hval
        obtain ⟨rest, hrest, heq⟩ := Option.map_eq_some_iff.mp h
        obtain ⟨rfl, rfl⟩ := List.cons.inj heq
        exact ⟨it', n, hnext, hkey, hval, hrest⟩
      · simp at h

lemma next_of_strip_nil (h : t.it.drain n = some pairs) (hlimit : pairs.length < limit)
    (hstrip : ∀ pair ∈ pairs, ¬ t.pre.isPrefixOf pair.1) :
    ∃ t', t.next limit = some (false, t') := by
  induction pairs generalizing t n limit with
  | nil =>
    obtain ⟨limit, rfl⟩ := Nat.exists_eq_succ_of_ne_zero (Nat.ne_zero_of_lt hlimit)
    obtain ⟨it', hnext⟩ := next_of_drain_nil h
    exact ⟨{ t with it := it' }, by rw [next, hnext]⟩
  | cons pair pairs ih =>
    obtain ⟨limit, rfl⟩ := Nat.exists_eq_succ_of_ne_zero (Nat.ne_zero_of_lt hlimit)
    obtain ⟨it', n', hnext, hkey, -, hrest⟩ := next_of_drain_cons h
    have hskip : ¬ t.pre.isPrefixOf pair.1 := hstrip pair (by simp)
    obtain ⟨t', ht'⟩ := ih (t := { t with it := it' }) (n := n') hrest
      (Nat.lt_of_succ_lt_succ hlimit) fun q hq => hstrip q (List.mem_cons_of_mem _ hq)
    refine ⟨t', ?_⟩
    simp only [next, hnext, hkey, Option.any_some, hskip]
    exact ht'

/-- Otherwise it stops at the first of them. -/
lemma next_of_strip_cons {skipped : List (Bytes × α)}
    (h : t.it.drain n = some (skipped ++ pair :: pairs))
    (hlimit : (skipped ++ pair :: pairs).length < limit)
    (hskipped : ∀ pair ∈ skipped, ¬ t.pre.isPrefixOf pair.1) (hpair : t.pre.isPrefixOf pair.1) :
    ∃ it' n', t.next limit = some (true, { t with it := it' }) ∧ it'.key = some pair.1 ∧
      it'.val = some pair.2 ∧ it'.drain n' = some pairs := by
  induction skipped generalizing t n limit with
  | nil =>
    obtain ⟨limit, rfl⟩ := Nat.exists_eq_succ_of_ne_zero (Nat.ne_zero_of_lt hlimit)
    obtain ⟨it', n', hnext, hkey, hval, hrest⟩ := next_of_drain_cons h
    refine ⟨it', n', ?_, hkey, hval, hrest⟩
    simp only [next, hnext, hkey, Option.any_some, hpair, if_true]
  | cons q skipped ih =>
    obtain ⟨limit, rfl⟩ := Nat.exists_eq_succ_of_ne_zero (Nat.ne_zero_of_lt hlimit)
    obtain ⟨it₁, n₁, hnext, hkey, -, hrest⟩ := next_of_drain_cons h
    have hskip : ¬ t.pre.isPrefixOf q.1 := hskipped q (by simp)
    obtain ⟨it', n', hnext', hfound⟩ := ih (t := { t with it := it₁ }) (n := n₁) hrest
      (Nat.lt_of_succ_lt_succ hlimit) (fun q hq => hskipped q (List.mem_cons_of_mem _ hq)) hpair
    refine ⟨it', n', ?_, hfound⟩
    simp only [next, hnext, hkey, Option.any_some, hskip]
    exact hnext'

lemma drain_eq (h : t.it.drain n = some pairs) (hlimit : pairs.length < limit)
    (hfuel : pairs.length < fuel) : t.drain limit fuel = some (strip t.pre pairs) := by
  induction fuel generalizing t n pairs with
  | zero => omega
  | succ fuel ih =>
    by_cases hnone : ∀ pair ∈ pairs, ¬ t.pre.isPrefixOf pair.1
    · obtain ⟨t', ht'⟩ := next_of_strip_nil h hlimit hnone
      have hnil : pairs.filter (fun pair => t.pre.isPrefixOf pair.1) = [] := by
        apply List.filter_eq_nil_iff.mpr
        exact hnone
      rw [drain, ht', strip, hnil]
      rfl
    · push Not at hnone
      obtain ⟨pair, hmem, hpair⟩ := hnone
      have hsome : (pairs.find? fun pair => t.pre.isPrefixOf pair.1).isSome := by
        rw [List.find?_isSome]
        exact ⟨pair, hmem, hpair⟩
      obtain ⟨first, hfirst⟩ := Option.isSome_iff_exists.mp hsome
      obtain ⟨hpre, skipped, rest, rfl, hskipped⟩ := List.find?_eq_some_iff_append.mp hfirst
      have hskipped' : ∀ pair ∈ skipped, ¬ t.pre.isPrefixOf pair.1 := by
        intro q hq
        have hq' := hskipped q hq
        rw [Bool.not_eq_true'] at hq'
        exact Bool.eq_false_iff.mp hq'
      obtain ⟨it', n', hnext, hkey, hval, hrest⟩ := next_of_strip_cons h hlimit hskipped' hpre
      have hlen : rest.length < (skipped ++ first :: rest).length := by
        simp only [List.length_append, List.length_cons]
        omega
      have hdrain := ih (t := { t with it := it' }) (n := n') hrest (hlen.trans hlimit)
        (Nat.lt_of_lt_of_le hlen (Nat.le_of_lt_succ hfuel))
      have hnil : skipped.filter (fun pair => t.pre.isPrefixOf pair.1) = [] := by
        apply List.filter_eq_nil_iff.mpr
        exact hskipped'
      have hstrip : strip t.pre (skipped ++ first :: rest) =
          (noPrefix first.1 t.pre, first.2) :: strip t.pre rest := by
        have hcons : (first :: rest).filter (fun pair => t.pre.isPrefixOf pair.1) =
            first :: rest.filter fun pair => t.pre.isPrefixOf pair.1 := List.filter_cons_of_pos hpre
        rw [strip, List.filter_append, hnil, List.nil_append, hcons, List.map_cons, strip]
      rw [drain, hnext, hstrip]
      simp only [hkey, hval, hdrain, Option.map_some]

end TableIterator

/-! ### The table's operations -/

namespace Table

variable {α : Type}

def has (w : Flushable Bytes α) (pre key : Bytes) : Bool := w.has (prefixed key pre)

def get (w : Flushable Bytes α) (pre key : Bytes) : Option α := w.get (prefixed key pre)

def put (w : Flushable Bytes α) (pre key : Bytes) (value : α) : Flushable Bytes α :=
  w.put (prefixed key pre) value

def delete (w : Flushable Bytes α) (pre key : Bytes) : Flushable Bytes α :=
  w.delete (prefixed key pre)

def newIterator (w : Flushable Bytes α) (tree : WriteTree α) (pre : Bytes) : TableIterator α :=
  ⟨w.newIteratorWithPrefix tree (some pre), pre⟩

def newIteratorWithStart (w : Flushable Bytes α) (tree : WriteTree α)
    (pre start : Bytes) : TableIterator α :=
  ⟨w.newIteratorWithStart tree (some (prefixed start pre)), pre⟩

def newIteratorWithPrefix (w : Flushable Bytes α) (tree : WriteTree α)
    (pre itPrefix : Bytes) : TableIterator α :=
  ⟨w.newIteratorWithPrefix tree (some (prefixed itPrefix pre)), pre⟩

/-- The table answers as a map of its own does: its iterators return exactly the pairs of the map
that are asked for, in the order of the keys. The tree is any with the writes that are not flushed,
and the numbers of steps are any that are enough. -/
structure Answers (w : Flushable Bytes α) (pre : Bytes) (live : ExtTreeMap Bytes α) : Prop where
  get : ∀ k, Table.get w pre k = live[k]?
  has : ∀ k, Table.has w pre k = decide (k ∈ live)
  newIterator : ∀ tree, tree.toList = w.modified.toList →
    ∀ limit fuel, w.flush.underlying.size < limit → w.flush.underlying.size < fuel →
    (Table.newIterator w tree pre).drain limit fuel = some live.toList
  newIteratorWithStart : ∀ tree, tree.toList = w.modified.toList →
    ∀ limit fuel, w.flush.underlying.size < limit → w.flush.underlying.size < fuel →
    ∀ start, (Table.newIteratorWithStart w tree pre start).drain limit fuel =
      some (live.toList.filter fun pair => compare pair.1 start ≠ .lt)
  newIteratorWithPrefix : ∀ tree, tree.toList = w.modified.toList →
    ∀ limit fuel, w.flush.underlying.size < limit → w.flush.underlying.size < fuel →
    ∀ itPrefix, (Table.newIteratorWithPrefix w tree pre itPrefix).drain limit fuel =
      some (live.toList.filter fun pair => itPrefix.isPrefixOf pair.1)

variable {w : Flushable Bytes α} {pre : Bytes} {live : ExtTreeMap Bytes α}

lemma sortedPairs_strip {pairs : List (Bytes × α)} (h : SortedPairs pairs) :
    SortedPairs (TableIterator.strip pre pairs) := by
  apply List.pairwise_map.mpr
  refine (h.filter _).imp_of_mem ?_
  intro a b ha hb hab
  rw [← compare_prefixed _ _ pre, prefixed_noPrefix (List.mem_filter.mp ha).2,
    prefixed_noPrefix (List.mem_filter.mp hb).2]
  exact hab

lemma mem_strip {pairs : List (Bytes × α)} {pair : Bytes × α} :
    pair ∈ TableIterator.strip pre pairs ↔ (prefixed pair.1 pre, pair.2) ∈ pairs := by
  rw [TableIterator.strip, List.mem_map]
  constructor
  · rintro ⟨q, hq, rfl⟩
    obtain ⟨hq, hpre⟩ := List.mem_filter.mp hq
    rw [prefixed_noPrefix hpre]
    exact hq
  · intro hmem
    refine ⟨_, List.mem_filter.mpr ⟨hmem, isPrefixOf_prefixed _ _⟩, ?_⟩
    rw [noPrefix_prefixed]

lemma strip_toList (h : ∀ k, Table.get w pre k = live[k]?) (p : Bytes → Bool) :
    TableIterator.strip pre (w.flush.underlying.toList.filter fun pair => p pair.1) =
      live.toList.filter fun pair => p (prefixed pair.1 pre) := by
  apply SortedPairs.eq_of_mem_iff
  · exact sortedPairs_strip ((sortedPairs_toList _).filter _)
  · exact (sortedPairs_toList _).filter _
  · intro pair
    rw [mem_strip, List.mem_filter, List.mem_filter, ExtTreeMap.mem_toList_iff_getElem?_eq_some,
      ExtTreeMap.mem_toList_iff_getElem?_eq_some, Flushable.underlying_flush, ← h]
    rfl

lemma drain_range (h : ∀ k, Table.get w pre k = live[k]?) {it : Iterator α} {p : Bytes → Bool}
    {n limit fuel : ℕ}
    (hit : it.drain n = some (w.flush.underlying.toList.filter fun pair => p pair.1))
    (hlimit : w.flush.underlying.size < limit) (hfuel : w.flush.underlying.size < fuel) :
    (⟨it, pre⟩ : TableIterator α).drain limit fuel =
      some (live.toList.filter fun pair => p (prefixed pair.1 pre)) := by
  have hlen : (w.flush.underlying.toList.filter fun pair => p pair.1).length ≤
      w.flush.underlying.size := by
    rw [← ExtTreeMap.length_toList]
    exact List.length_filter_le _ _
  rw [TableIterator.drain_eq hit (hlen.trans_lt hlimit) (hlen.trans_lt hfuel), strip_toList h]

/-- The pairs that an iterator over the keys of the table with a prefix returns. -/
def scanPrefix (w : Flushable Bytes α) (pre itPrefix : Bytes) : List (Bytes × α) :=
  TableIterator.strip pre
    (w.flush.underlying.toList.filter fun pair => (prefixed itPrefix pre).isPrefixOf pair.1)

lemma drain_newIteratorWithPrefix {tree : WriteTree α}
    (htree : tree.toList = w.modified.toList) {limit fuel : ℕ}
    (hlimit : w.flush.underlying.size < limit) (hfuel : w.flush.underlying.size < fuel)
    (itPrefix : Bytes) : (newIteratorWithPrefix w tree pre itPrefix).drain limit fuel =
      some (scanPrefix w pre itPrefix) := by
  have hit := w.answers_flush.newIteratorWithPrefix tree htree fuel hfuel
    (some (prefixed itPrefix pre))
  have hlen := List.length_filter_le
    (fun pair : Bytes × α => (prefixed itPrefix pre).isPrefixOf pair.1) w.flush.underlying.toList
  rw [ExtTreeMap.length_toList] at hlen
  exact TableIterator.drain_eq (t := newIteratorWithPrefix w tree pre itPrefix) hit
    (hlen.trans_lt hlimit) (hlen.trans_lt hfuel)

lemma mem_scanPrefix {itPrefix : Bytes} {pair : Bytes × α} :
    pair ∈ scanPrefix w pre itPrefix ↔
      Table.get w pre pair.1 = some pair.2 ∧ itPrefix.isPrefixOf pair.1 := by
  rw [scanPrefix, mem_strip, List.mem_filter, ExtTreeMap.mem_toList_iff_getElem?_eq_some,
    Flushable.underlying_flush, prefixed_isPrefixOf_prefixed, Table.get]

lemma sortedPairs_scanPrefix (w : Flushable Bytes α) (pre itPrefix : Bytes) :
    SortedPairs (scanPrefix w pre itPrefix) :=
  sortedPairs_strip ((sortedPairs_toList _).filter _)

/-- All answers follow from those of `Get`. -/
theorem answers_iff : Answers w pre live ↔ ∀ k, Table.get w pre k = live[k]? := by
  constructor
  · exact fun h => h.get
  · intro h
    have hw := w.answers_flush
    refine ⟨h, ?_, ?_, ?_, ?_⟩
    · intro k
      rw [Table.has, Flushable.has_eq, ← Table.get, h, Bool.eq_iff_iff, decide_eq_true_iff]
      exact ExtTreeMap.mem_iff_isSome_getElem?.symm
    · intro tree htree limit fuel hlimit hfuel
      have hit := hw.newIteratorWithPrefix tree htree fuel hfuel (some pre)
      have hdrain := drain_range h hit hlimit hfuel
      simpa [newIterator] using hdrain
    · intro tree htree limit fuel hlimit hfuel start
      have hit := hw.newIteratorWithStart tree htree fuel hfuel (some (prefixed start pre))
      have hdrain := drain_range (p := fun k => decide (compare k (prefixed start pre) ≠ .lt)) h hit
        hlimit hfuel
      simpa only [newIteratorWithStart, compare_prefixed] using hdrain
    · intro tree htree limit fuel hlimit hfuel itPrefix
      have hit := hw.newIteratorWithPrefix tree htree fuel hfuel (some (prefixed itPrefix pre))
      have hdrain := drain_range h hit hlimit hfuel
      simpa only [newIteratorWithPrefix, Option.all_some, prefixed_isPrefixOf_prefixed] using hdrain

end Table

/-! ### Prefixes -/

/-- `uniqKeys` -/
structure UniqKeys where
  len : ℕ
  keys : List Bytes

namespace UniqKeys

def add (u : UniqKeys) (key : Bytes) : UniqKeys where
  len := if u.keys = [] ∨ u.len > key.length then key.length else u.len
  keys := u.keys ++ [key]

/-- `uniqKeys.Check`: whether it does not panic. -/
def check (u : UniqKeys) : Bool := decide (u.keys.Pairwise fun a b => a.take u.len ≠ b.take u.len)

/-- All prefixes added. -/
def ofKeys (keys : List Bytes) : UniqKeys := keys.foldl add ⟨0, []⟩

lemma keys_foldl_add (u : UniqKeys) (keys : List Bytes) :
    (keys.foldl add u).keys = u.keys ++ keys := by
  induction keys generalizing u with
  | nil => simp
  | cons key keys ih => rw [List.foldl_cons, ih, add, List.append_assoc, List.singleton_append]

lemma len_foldl_add_le {u : UniqKeys} (hu : ∀ key ∈ u.keys, u.len ≤ key.length) (keys : List Bytes) :
    ∀ key ∈ (keys.foldl add u).keys, (keys.foldl add u).len ≤ key.length := by
  induction keys generalizing u with
  | nil => exact hu
  | cons key keys ih =>
    apply ih
    intro k hk
    simp only [add, List.mem_append, List.mem_singleton] at hk ⊢
    rcases hk with hk | rfl
    · have hne : u.keys ≠ [] := List.ne_nil_of_mem hk
      have hle := hu k hk
      split_ifs with h
      · have hlt := h.resolve_left hne
        omega
      · exact hle
    · split_ifs with h
      · exact le_rfl
      · omega

lemma not_isPrefixOf_of_check {keys : List Bytes} (h : (ofKeys keys).check) :
    keys.Pairwise fun a b => ¬ a <+: b ∧ ¬ b <+: a := by
  have hkeys : (ofKeys keys).keys = keys := keys_foldl_add _ _
  have hlen := len_foldl_add_le (u := ⟨0, []⟩) (by simp) keys
  have hdistinct := of_decide_eq_true h
  change ∀ key ∈ (ofKeys keys).keys, (ofKeys keys).len ≤ key.length at hlen
  rw [hkeys] at hdistinct hlen
  refine hdistinct.imp_of_mem ?_
  intro a b ha hb hne
  constructor
  · rintro ⟨t, rfl⟩
    exact hne (List.take_append_of_le_length (hlen a ha)).symm
  · rintro ⟨t, rfl⟩
    exact hne (List.take_append_of_le_length (hlen b hb))

end UniqKeys

/-- `MigrateTables` with a database: the prefixes of the tagged fields, or a panic. -/
def migrateTables (tags : List Bytes) : Option (List Bytes) :=
  let keys := tags.filter fun tag => tag ≠ [] ∧ tag ≠ [45]
  if (UniqKeys.ofKeys keys).check then some keys else none

lemma prefixed_ne_prefixed {tags keys : List Bytes} (h : migrateTables tags = some keys)
    {p q : Bytes} (hp : p ∈ keys) (hq : q ∈ keys) (hne : p ≠ q) (k k' : Bytes) :
    prefixed k p ≠ prefixed k' q := by
  simp only [migrateTables, Option.ite_none_right_eq_some, Option.some.injEq] at h
  obtain ⟨hcheck, rfl⟩ := h
  have : Std.Symm fun a b : Bytes => ¬ a <+: b ∧ ¬ b <+: a := ⟨fun _ _ h => h.symm⟩
  obtain ⟨hpq, hqp⟩ := (UniqKeys.not_isPrefixOf_of_check hcheck).forall hp hq hne
  intro heq
  have hp' : p <+: prefixed k' q := heq ▸ List.prefix_append p k
  rcases List.prefix_or_prefix_of_prefix hp' (List.prefix_append q k') with h | h
  · exact hpq h
  · exact hqp h

end Lachesis
