import Mathlib.Tactic.Ring
import Mathlib.Tactic.Linarith

/-!
# Records in byte strings

Numbers are written as a fixed number of bytes, least significant first. A byte string whose length
is a multiple of `w` is an array of records of `w` bytes; reading past its end gives zeros and
writing past its end fills the gap with zeros.
-/

namespace Lachesis.Core

/-! ### Little-endian numbers -/

/-- The `k` least significant bytes of `n`, least significant first. -/
def leBytes : ℕ → ℕ → List UInt8
  | 0, _ => []
  | k + 1, n => UInt8.ofNat n :: leBytes k (n / 256)

/-- The number written in a byte string, least significant byte first. -/
def leNat : List UInt8 → ℕ
  | [] => 0
  | b :: bs => b.toNat + 256 * leNat bs

@[simp] lemma length_leBytes (k n : ℕ) : (leBytes k n).length = k := by
  induction k generalizing n with
  | zero => rfl
  | succ k ih => simp [leBytes, ih]

lemma leNat_leBytes {k n : ℕ} (h : n < 256 ^ k) : leNat (leBytes k n) = n := by
  induction k generalizing n with
  | zero =>
    have : n = 0 := by simpa using h
    simp [leBytes, leNat, this]
  | succ k ih =>
    have hdiv : n / 256 < 256 ^ k := by
      rw [Nat.div_lt_iff_lt_mul (by omega)]
      simpa [pow_succ] using h
    simp only [leBytes, leNat, ih hdiv, UInt8.toNat_ofNat']
    omega

@[simp] lemma leNat_replicate_zero (k : ℕ) : leNat (List.replicate k 0) = 0 := by
  induction k with
  | zero => rfl
  | succ k ih => simp [List.replicate_succ, leNat, ih]

lemma leNat_lt (bs : List UInt8) : leNat bs < 256 ^ bs.length := by
  induction bs with
  | nil => simp [leNat]
  | cons b bs ih =>
    have := b.toNat_lt
    simp only [leNat, List.length_cons, pow_succ]
    omega

lemma leNat_drop (bs : List UInt8) (i : ℕ) : leNat (bs.drop i) = leNat bs / 256 ^ i := by
  induction bs generalizing i with
  | nil => simp [leNat]
  | cons b bs ih =>
    cases i with
    | zero => simp
    | succ i =>
      have hb := b.toNat_lt
      have hhead : leNat (b :: bs) / 256 = leNat bs := by
        simp only [leNat]
        omega
      rw [List.drop_succ_cons, ih, pow_succ', ← Nat.div_div_eq_div_mul, hhead]

/-- The byte at `i` is the digit of that place. -/
lemma toNat_getElem (bs : List UInt8) {i : ℕ} (h : i < bs.length) :
    bs[i].toNat = leNat bs / 256 ^ i % 256 := by
  have hb := bs[i].toNat_lt
  rw [← leNat_drop, List.drop_eq_getElem_cons h, leNat]
  omega

/-- Writing a byte changes the digit of its place. -/
lemma leNat_set {bs : List UInt8} {i : ℕ} (h : i < bs.length) (b : UInt8) :
    leNat (bs.set i b) =
      leNat bs % 256 ^ i + 256 ^ i * (b.toNat + 256 * (leNat bs / 256 ^ (i + 1))) := by
  induction bs generalizing i with
  | nil => simp at h
  | cons c bs ih =>
    have hc := c.toNat_lt
    have hmod : leNat (c :: bs) % 256 = c.toNat := by
      simp only [leNat]
      omega
    have hdiv : leNat (c :: bs) / 256 = leNat bs := by
      simp only [leNat]
      omega
    cases i with
    | zero =>
      rw [List.set_cons_zero, leNat, zero_add, pow_one, hdiv]
      simp [Nat.mod_one]
    | succ i =>
      have hlt : i < bs.length := Nat.lt_of_succ_lt_succ h
      rw [List.set_cons_succ, leNat, ih hlt, pow_succ' 256 (i + 1), ← Nat.div_div_eq_div_mul, hdiv,
        pow_succ' 256 i, Nat.mod_mul, hmod, hdiv]
      ring

/-! ### Arrays of records -/

/-- A byte string that is a whole number of records of `w` bytes. -/
@[ext]
structure ByteRecords (w : ℕ) where
  bytes : List UInt8
  aligned : w ∣ bytes.length

namespace ByteRecords

variable {w : ℕ}

def size (b : ByteRecords w) : ℕ := b.bytes.length / w

/-- An array of `n` zero records. -/
def zeros (n : ℕ) : ByteRecords w := ⟨List.replicate (n * w) 0, by simp⟩

/-- The `i`-th record, zero past the end. -/
def get (b : ByteRecords w) (i : ℕ) : List UInt8 :=
  if b.size ≤ i then List.replicate w 0 else (b.bytes.drop (i * w)).take w

/-- The bytes with zero records appended until there is an `i`-th one. -/
def grow (b : ByteRecords w) (i : ℕ) : List UInt8 :=
  b.bytes ++ List.replicate ((i + 1 - b.size) * w) 0

lemma length_eq (b : ByteRecords w) : b.bytes.length = b.size * w :=
  (Nat.div_mul_cancel b.aligned).symm

lemma length_grow (b : ByteRecords w) (i : ℕ) : (b.grow i).length = max b.size (i + 1) * w := by
  rw [grow, List.length_append, List.length_replicate, length_eq, ← Nat.add_mul]
  congr 1
  omega

/-- The array with the `i`-th record replaced by `r`. -/
def set (b : ByteRecords w) (i : ℕ) (r : List UInt8) (hr : r.length = w) : ByteRecords w where
  bytes := (b.grow i).take (i * w) ++ r ++ (b.grow i).drop ((i + 1) * w)
  aligned := by
    have hle : (i + 1) * w ≤ (b.grow i).length := by
      rw [length_grow]
      exact Nat.mul_le_mul_right _ (le_max_right _ _)
    have hlen : ((b.grow i).take (i * w) ++ r ++ (b.grow i).drop ((i + 1) * w)).length
        = (b.grow i).length := by
      simp only [List.length_append, List.length_take, List.length_drop, hr]
      rw [Nat.succ_mul] at hle ⊢
      omega
    rw [hlen, length_grow]
    exact Nat.dvd_mul_left _ _

lemma length_set (b : ByteRecords w) (i : ℕ) {r : List UInt8} (hr : r.length = w) :
    (b.set i r hr).bytes.length = max b.size (i + 1) * w := by
  have hle : (i + 1) * w ≤ (b.grow i).length := by
    rw [length_grow]
    exact Nat.mul_le_mul_right _ (le_max_right _ _)
  rw [← length_grow]
  simp only [set, List.length_append, List.length_take, List.length_drop, hr]
  rw [Nat.succ_mul] at hle ⊢
  omega

lemma size_set (hw : 0 < w) (b : ByteRecords w) (i : ℕ) {r : List UInt8} (hr : r.length = w) :
    (b.set i r hr).size = max b.size (i + 1) := by
  rw [size, length_set, Nat.mul_div_cancel _ hw]

@[simp] lemma size_zeros (hw : 0 < w) (n : ℕ) : (zeros n : ByteRecords w).size = n := by
  simp [size, zeros, Nat.mul_div_cancel _ hw]

lemma get_of_size_le {b : ByteRecords w} {i : ℕ} (h : b.size ≤ i) :
    b.get i = List.replicate w 0 := if_pos h

lemma length_get (b : ByteRecords w) (i : ℕ) : (b.get i).length = w := by
  unfold get
  split_ifs with h
  · simp
  · rw [List.length_take, List.length_drop, b.length_eq, ← Nat.sub_mul]
    exact min_eq_left (Nat.le_mul_of_pos_left w (by omega))

lemma get_zeros (n i : ℕ) : (zeros n : ByteRecords w).get i = List.replicate w 0 := by
  unfold get
  split_ifs with h
  · rfl
  · have hw : 0 < w := by
      rcases Nat.eq_zero_or_pos w with rfl | hw
      · simp [size] at h
      · exact hw
    rw [size_zeros hw] at h
    have : w ≤ n * w - i * w := by
      rw [← Nat.sub_mul]
      exact Nat.le_mul_of_pos_left w (by omega)
    simp [zeros, this]

lemma grow_drop_take (b : ByteRecords w) {i j : ℕ} (hj : j < max b.size (i + 1)) :
    ((b.grow i).drop (j * w)).take w = b.get j := by
  have hlen := b.length_eq
  unfold get grow
  by_cases hjs : b.size ≤ j
  · have hge : b.bytes.length ≤ j * w := by
      rw [hlen]
      exact Nat.mul_le_mul_right _ hjs
    have hroom : w ≤ (i + 1 - b.size) * w - (j * w - b.bytes.length) := by
      rw [hlen, ← Nat.sub_mul, ← Nat.sub_mul]
      exact Nat.le_mul_of_pos_left w (by omega)
    rw [if_pos hjs, List.drop_append, List.drop_of_length_le hge, List.nil_append,
      List.drop_replicate, List.take_replicate, Nat.min_eq_left hroom]
  · have hroom : w ≤ (b.bytes.drop (j * w)).length := by
      rw [List.length_drop, hlen, ← Nat.sub_mul]
      exact Nat.le_mul_of_pos_left w (by omega)
    have hle : j * w ≤ b.bytes.length := by
      rw [hlen]
      exact Nat.mul_le_mul_right _ (by omega)
    rw [if_neg hjs, List.drop_append_of_le_length hle, List.take_append_of_le_length hroom]

/-- The bytes grow when a record is written past the end. -/
theorem get_set (hw : 0 < w) (b : ByteRecords w) (i j : ℕ) {r : List UInt8} (hr : r.length = w) :
    (b.set i r hr).get j = if j = i then r else b.get j := by
  have hgl := b.length_grow i
  have hmax : (i + 1) * w ≤ max b.size (i + 1) * w := Nat.mul_le_mul_right _ (le_max_right _ _)
  have hsucc : (i + 1) * w = i * w + w := Nat.succ_mul i w
  have htake : ((b.grow i).take (i * w)).length = i * w := by
    rw [List.length_take, hgl]
    omega
  by_cases hj : max b.size (i + 1) ≤ j
  · rw [get_of_size_le (by rw [size_set hw]; exact hj), if_neg (by omega),
      get_of_size_le (by omega)]
  rw [get, if_neg (by rw [size_set hw]; exact hj)]
  simp only [set, List.append_assoc]
  rcases Nat.lt_trichotomy j i with hlt | rfl | hgt
  · -- before the record that was written
    have hjw : j * w + w ≤ i * w := by
      rw [← Nat.succ_mul]
      exact Nat.mul_le_mul_right _ hlt
    rw [if_neg (by omega), List.drop_append_of_le_length (by omega),
      List.take_append_of_le_length (by rw [List.length_drop]; omega), List.drop_take,
      List.take_take, Nat.min_eq_left (by omega), b.grow_drop_take (by omega)]
  · rw [if_pos rfl, List.drop_append, htake, List.drop_of_length_le (by omega), Nat.sub_self,
      List.drop_zero, List.nil_append, List.take_append_of_le_length (by omega),
      List.take_of_length_le (by omega)]
  · -- after it
    have hjw : (i + 1) * w ≤ j * w := Nat.mul_le_mul_right _ hgt
    rw [if_neg (by omega), List.drop_append, htake, List.drop_of_length_le (by omega),
      List.nil_append, List.drop_append, hr, List.drop_of_length_le (by omega), List.nil_append,
      List.drop_drop, ← b.grow_drop_take (i := i) (by omega)]
    congr 2
    omega

end ByteRecords

end Lachesis.Core
