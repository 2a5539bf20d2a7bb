import Mathlib.Data.List.Basic

/-!
# Slices of shared arrays

A slice is the first elements of an array, which other slices may share. Appending writes behind the
end of the slice as long as the array has room, and copies the slice to a new array otherwise. A slice
keeps its elements as long as nothing is appended to a shorter slice of the same array.
-/

namespace Lachesis.Core

/-- A slice from the beginning of an array. -/
structure SharedSlice where
  array : ℕ
  len : ℕ
  cap : ℕ
  deriving DecidableEq, Repr

/-- All arrays, each as far as it was written. -/
abbrev Arrays (α : Type) := List (List α)

namespace Arrays

variable {α : Type}

/-- The elements of the slice. -/
def read (h : Arrays α) (s : SharedSlice) : List α := (h.getD s.array []).take s.len

/-- The elements of the slice were written. -/
structure Valid (h : Arrays α) (s : SharedSlice) : Prop where
  array_lt : s.array < h.length
  len_le : s.len ≤ (h.getD s.array []).length

/-- `make` of an empty slice. -/
def make (h : Arrays α) (cap : ℕ) : SharedSlice × Arrays α := (⟨h.length, 0, cap⟩, h ++ [[]])

/-- `append` of an element; `grow` is the capacity of a new array. -/
def append (grow : ℕ → ℕ) (h : Arrays α) (s : SharedSlice) (x : α) : SharedSlice × Arrays α :=
  if s.len < s.cap then
    ({ s with len := s.len + 1 }, h.set s.array (h.read s ++ x :: (h.getD s.array []).drop (s.len + 1)))
  else (⟨h.length, s.len + 1, grow s.cap⟩, h ++ [h.read s ++ [x]])

/-- The elements appended one after another. -/
def appendAll (grow : ℕ → ℕ) (h : Arrays α) (s : SharedSlice) (xs : List α) : SharedSlice × Arrays α :=
  xs.foldl (fun r x => append grow r.2 r.1 x) (s, h)

variable {grow : ℕ → ℕ} {h : Arrays α} {s t : SharedSlice} {x : α}

lemma Valid.length_read (hs : h.Valid s) : (h.read s).length = s.len := by
  rw [read, List.length_take, Nat.min_eq_left hs.len_le]

lemma getD_append_of_lt {a : ℕ} (ha : a < h.length) (l : List α) :
    (h ++ [l]).getD a [] = h.getD a [] := by
  rw [List.getD_eq_getElem?_getD, List.getElem?_append_left ha, List.getD_eq_getElem?_getD]

lemma getD_append_length (l : List α) : (h ++ [l]).getD h.length [] = l := by
  simp

/-- Slices stay valid when an array is made. -/
lemma Valid.of_new (ht : h.Valid t) (l : List α) : Valid (h ++ [l]) t where
  array_lt := by
    have := ht.array_lt
    simp
    omega
  len_le := by
    rw [getD_append_of_lt ht.array_lt]
    exact ht.len_le

lemma Valid.read_new (ht : h.Valid t) (l : List α) : read (h ++ [l]) t = h.read t := by
  rw [read, getD_append_of_lt ht.array_lt, read]

lemma valid_make (h : Arrays α) (cap : ℕ) : (h.make cap).2.Valid (h.make cap).1 :=
  ⟨by simp [make], Nat.zero_le _⟩

lemma read_make (h : Arrays α) (cap : ℕ) : (h.make cap).2.read (h.make cap).1 = [] := by
  simp [make, read]

lemma getD_set_self (ha : s.array < h.length) (l : List α) :
    (h.set s.array l).getD s.array [] = l := by
  simp [List.getD_eq_getElem?_getD, ha]

lemma getD_set_of_ne {a b : ℕ} (hab : a ≠ b) (l : List α) :
    (h.set a l).getD b [] = h.getD b [] := by
  simp [List.getD_eq_getElem?_getD, hab]

/-- The result of `append` reads as the slice and the new element. -/
lemma Valid.append (hs : h.Valid s) (grow : ℕ → ℕ) (x : α) :
    (Arrays.append grow h s x).2.Valid (Arrays.append grow h s x).1 ∧
      (Arrays.append grow h s x).2.read (Arrays.append grow h s x).1 = h.read s ++ [x] := by
  have hlen := hs.length_read
  unfold Arrays.append
  split_ifs with hcap
  · have hget := getD_set_self hs.array_lt (h.read s ++ x :: (h.getD s.array []).drop (s.len + 1))
    refine ⟨⟨by simpa using hs.array_lt, ?_⟩, ?_⟩
    · simp only
      rw [hget, List.length_append, hlen, List.length_cons]
      omega
    · rw [read]
      simp only
      rw [hget, List.take_append, hlen, List.take_of_length_le (by omega), Nat.add_sub_cancel_left]
      rfl
  · have hlen' : (h.read s ++ [x]).length = s.len + 1 := by simp [hlen]
    refine ⟨⟨by simp, ?_⟩, ?_⟩
    · simp only
      exact Nat.le_of_eq (by rw [getD_append_length, hlen'])
    · rw [read]
      simp only
      rw [getD_append_length, List.take_of_length_le (Nat.le_of_eq hlen')]

/-- A slice of the same array that is not longer is not overwritten. -/
lemma Valid.append_other (ht : h.Valid t) (hs : h.Valid s)
    (hle : t.array = s.array → t.len ≤ s.len) (grow : ℕ → ℕ) (x : α) :
    (Arrays.append grow h s x).2.Valid t ∧ (Arrays.append grow h s x).2.read t = h.read t := by
  unfold Arrays.append
  split_ifs with hcap
  · by_cases harray : t.array = s.array
    · have hget : (h.set s.array (h.read s ++ x :: (h.getD s.array []).drop (s.len + 1))).getD
          t.array [] = h.read s ++ x :: (h.getD s.array []).drop (s.len + 1) := by
        rw [harray]
        exact getD_set_self hs.array_lt _
      have hshort := hle harray
      have hlen := hs.length_read
      refine ⟨⟨by simpa using ht.array_lt, ?_⟩, ?_⟩
      · rw [hget, List.length_append, hlen]
        omega
      · rw [read, hget, List.take_append_of_le_length (by omega), read, List.take_take,
          Nat.min_eq_left hshort, read, harray]
    · have hget := getD_set_of_ne (h := h) (Ne.symm harray)
        (h.read s ++ x :: (h.getD s.array []).drop (s.len + 1))
      refine ⟨⟨by simpa using ht.array_lt, ?_⟩, ?_⟩
      · rw [hget]
        exact ht.len_le
      · rw [read, hget, read]
  · exact ⟨ht.of_new _, ht.read_new _⟩

/-- The result is on the same array or on a new one. -/
lemma append_array (grow : ℕ → ℕ) (h : Arrays α) (s : SharedSlice) (x : α) :
    (Arrays.append grow h s x).1.len = s.len + 1 ∧
      ((Arrays.append grow h s x).1.array = s.array ∨
        (Arrays.append grow h s x).1.array = h.length) ∧
      h.length ≤ (Arrays.append grow h s x).2.length := by
  unfold Arrays.append
  split_ifs
  · exact ⟨rfl, Or.inl rfl, by simp⟩
  · exact ⟨rfl, Or.inr rfl, by simp⟩

/-- Slices of earlier arrays read as before. -/
lemma Valid.appendAll (hs : h.Valid s) (grow : ℕ → ℕ) (xs : List α) {m : ℕ} (hm : m ≤ s.array)
    (hmh : m ≤ h.length) :
    (Arrays.appendAll grow h s xs).2.Valid (Arrays.appendAll grow h s xs).1 ∧
      (Arrays.appendAll grow h s xs).2.read (Arrays.appendAll grow h s xs).1 = h.read s ++ xs ∧
      m ≤ (Arrays.appendAll grow h s xs).1.array ∧
      ∀ t : SharedSlice, h.Valid t → t.array < m → (Arrays.appendAll grow h s xs).2.Valid t ∧
        (Arrays.appendAll grow h s xs).2.read t = h.read t := by
  induction xs generalizing h s with
  | nil => exact ⟨hs, by simp [Arrays.appendAll], hm, fun t ht _ => ⟨ht, rfl⟩⟩
  | cons x xs ih =>
    obtain ⟨hvalid, hread⟩ := hs.append grow x
    obtain ⟨-, harray, hgrow⟩ := append_array grow h s x
    have hm' : m ≤ (Arrays.append grow h s x).1.array := by
      rcases harray with heq | heq <;> rw [heq] <;> assumption
    obtain ⟨hvalid', hread', harray', hothers⟩ := ih hvalid hm' (Nat.le_trans hmh hgrow)
    refine ⟨hvalid', ?_, harray', ?_⟩
    · rw [Arrays.appendAll, List.foldl_cons, ← Arrays.appendAll, hread', hread, List.append_assoc,
        List.singleton_append]
    · intro t ht hlt
      obtain ⟨ht', hkeep⟩ := ht.append_other hs (fun heq => absurd heq (by omega)) grow x
      obtain ⟨ht'', hkeep'⟩ := hothers t ht' hlt
      exact ⟨ht'', hkeep'.trans hkeep⟩

end Arrays

end Lachesis.Core
