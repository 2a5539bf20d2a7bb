import Lachesis.Core.ByteRecords
import Mathlib.Data.Nat.Bitwise

/-!
# Packed numbers

A number is written compactly as its bytes up to the last one that is not zero, least significant
first. Smaller numbers are packed into fields of `w` bits, where `w` divides eight so that no field
crosses the end of a byte; a byte string of fields is determined by the numbers it holds.
-/

namespace Lachesis.Core

/-! ### Compact numbers -/

/-- The bytes of `n` up to the last one that is not zero, at least one and at most `k` of them. -/
def compactBytes : ℕ → ℕ → List UInt8
  | 0, _ => []
  | k + 1, n => UInt8.ofNat n :: if n / 256 = 0 then [] else compactBytes k (n / 256)

/-- There is a byte, and the last of several is not zero. -/
def IsCompact (bs : List UInt8) : Prop := bs ≠ [] ∧ (1 < bs.length → bs.getLast? ≠ some 0)

lemma length_compactBytes_le (k n : ℕ) : (compactBytes k n).length ≤ k := by
  induction k generalizing n with
  | zero => simp [compactBytes]
  | succ k ih =>
    have := ih (n / 256)
    rw [compactBytes]
    split_ifs
    · simp
    · simpa using this

lemma compactBytes_ne_nil {k : ℕ} (hk : 0 < k) (n : ℕ) : compactBytes k n ≠ [] := by
  obtain ⟨k, rfl⟩ := Nat.exists_eq_succ_of_ne_zero hk.ne'
  simp [compactBytes]

lemma length_compactBytes_pos {k : ℕ} (hk : 0 < k) (n : ℕ) : 0 < (compactBytes k n).length :=
  List.length_pos_iff.mpr (compactBytes_ne_nil hk n)

/-- Leaving out zero bytes loses nothing. -/
lemma leNat_compactBytes {k n : ℕ} (h : n < 256 ^ k) : leNat (compactBytes k n) = n := by
  induction k generalizing n with
  | zero =>
    have : n = 0 := by simpa using h
    simp [compactBytes, leNat, this]
  | succ k ih =>
    have hdiv : n / 256 < 256 ^ k := by
      rw [Nat.div_lt_iff_lt_mul (by omega)]
      simpa [pow_succ] using h
    rw [compactBytes]
    split_ifs with hzero
    · simp only [leNat, UInt8.toNat_ofNat']
      omega
    · simp only [leNat, ih hdiv, UInt8.toNat_ofNat']
      omega

lemma leNat_ne_zero_of_getLast? {bs : List UInt8} {b : UInt8} (h : bs.getLast? = some b)
    (hb : b ≠ 0) : leNat bs ≠ 0 := by
  induction bs with
  | nil => simp at h
  | cons c bs ih =>
    have hb' : b.toNat ≠ 0 := fun h0 => hb (UInt8.toNat_inj.mp (by simpa using h0))
    cases bs with
    | nil =>
      obtain rfl : c = b := by simpa using h
      simpa [leNat] using hb'
    | cons d bs =>
      have := ih (by simpa [List.getLast?_cons] using h)
      rw [leNat]
      omega

/-- No zero byte is written that could be left out. -/
lemma isCompact_compactBytes {k n : ℕ} (hk : 0 < k) (h : n < 256 ^ k) :
    IsCompact (compactBytes k n) := by
  refine ⟨compactBytes_ne_nil hk n, ?_⟩
  induction k generalizing n with
  | zero => omega
  | succ k ih =>
    rw [compactBytes]
    split_ifs with hzero
    · simp
    have hdiv : n / 256 < 256 ^ k := by
      rw [Nat.div_lt_iff_lt_mul (by omega)]
      simpa [pow_succ] using h
    have hk : 0 < k := by
      rcases Nat.eq_zero_or_pos k with rfl | hk
      · simp at hdiv
        omega
      · exact hk
    intro _ hlast
    have hb : (compactBytes k (n / 256)).getLast? = some 0 := by
      have hsome := List.getLast?_eq_some_getLast (compactBytes_ne_nil hk (n / 256))
      rw [List.getLast?_cons, hsome, Option.getD_some] at hlast
      rw [hsome, hlast]
    -- a single zero byte would stand for zero
    have hone : (compactBytes k (n / 256)).length = 1 := by
      have := length_compactBytes_pos hk (n / 256)
      by_contra hne
      exact ih hk hdiv (by omega) hb
    obtain ⟨c, hc⟩ := List.length_eq_one_iff.mp hone
    obtain rfl : c = 0 := by simpa [hc] using hb
    have hval := leNat_compactBytes hdiv
    rw [hc] at hval
    simp [leNat] at hval
    omega

/-- A compact byte string is what its number is written as. -/
theorem compactBytes_leNat {k : ℕ} {bs : List UInt8} (h : IsCompact bs) (hk : bs.length ≤ k) :
    compactBytes k (leNat bs) = bs := by
  obtain ⟨hne, hlast⟩ := h
  induction bs generalizing k with
  | nil => simp at hne
  | cons b bs ih =>
    obtain ⟨k, rfl⟩ : ∃ j, k = j + 1 := ⟨k - 1, by simp at hk; omega⟩
    have hb : b.toNat < 256 := b.toNat_lt
    have hmod : UInt8.ofNat (b.toNat + 256 * leNat bs) = b :=
      UInt8.toNat_inj.mp (by rw [UInt8.toNat_ofNat']; omega)
    have hdiv : (b.toNat + 256 * leNat bs) / 256 = leNat bs := by omega
    rw [leNat, compactBytes, hmod, hdiv]
    cases bs with
    | nil => simp [leNat]
    | cons c bs =>
      have hlast' : (c :: bs).getLast? ≠ some 0 := by
        simpa [List.getLast?_cons] using hlast (by simp)
      have hd := List.getLast?_eq_some_getLast (List.cons_ne_nil c bs)
      have hpos := leNat_ne_zero_of_getLast? hd fun h0 => hlast' (by rw [hd, h0])
      rw [if_neg hpos, ih (by simpa using hk) (List.cons_ne_nil c bs) fun _ => hlast']

/-! ### Bit fields -/

/-- The `i`-th number of a byte string of fields of `w` bits. -/
def field (w : ℕ) (bs : List UInt8) (i : ℕ) : ℕ :=
  ((bs.getD (i * w / 8) 0).toNat >>> (i * w % 8)) % 2 ^ w

/-- The byte string with `v` set in its `i`-th field. -/
def orField (w : ℕ) (bs : List UInt8) (i v : ℕ) : List UInt8 :=
  bs.set (i * w / 8) (bs.getD (i * w / 8) 0 ||| UInt8.ofNat (v <<< (i * w % 8)))

@[simp] lemma length_orField (w : ℕ) (bs : List UInt8) (i v : ℕ) :
    (orField w bs i v).length = bs.length := by simp [orField]

lemma testBit_field (w : ℕ) (bs : List UInt8) (i m : ℕ) : (field w bs i).testBit m =
    (decide (m < w) && (bs.getD (i * w / 8) 0).toNat.testBit (i * w % 8 + m)) := by
  rw [field, Nat.testBit_mod_two_pow, Nat.testBit_shiftRight]

lemma field_lt (w : ℕ) (bs : List UInt8) (i : ℕ) : field w bs i < 2 ^ w :=
  Nat.mod_lt _ (Nat.two_pow_pos w)

lemma field_replicate_zero (w n i : ℕ) : field w (List.replicate n 0) i = 0 := by
  rw [field, List.getD_eq_getElem?_getD, List.getElem?_replicate]
  split_ifs <;> simp

/-- Fields do not cross the end of a byte. -/
lemma field_end_le {w : ℕ} (hw : w ∣ 8) (i : ℕ) : i * w % 8 + w ≤ 8 := by
  obtain ⟨c, hc⟩ := hw
  rw [hc, Nat.mul_comm w c, Nat.mul_mod_mul_right]
  have hc0 : 0 < c := by
    rcases Nat.eq_zero_or_pos c with rfl | h
    · omega
    · exact h
  have := Nat.mod_lt i hc0
  calc i % c * w + w = (i % c + 1) * w := by ring
    _ ≤ c * w := Nat.mul_le_mul_right w this

/-- Two fields of one byte are apart. -/
lemma field_apart {w i j : ℕ} (hbyte : j * w / 8 = i * w / 8) (hne : j ≠ i) :
    i * w % 8 + w ≤ j * w % 8 ∨ j * w % 8 + w ≤ i * w % 8 := by
  have hi := Nat.div_add_mod (i * w) 8
  have hj := Nat.div_add_mod (j * w) 8
  rcases Nat.lt_or_gt_of_ne hne with h | h
  · have : (j + 1) * w ≤ i * w := Nat.mul_le_mul_right w h
    rw [Nat.add_mul, Nat.one_mul] at this
    omega
  · have : (i + 1) * w ≤ j * w := Nat.mul_le_mul_right w h
    rw [Nat.add_mul, Nat.one_mul] at this
    omega

/-- Setting a field changes no other one. -/
theorem field_orField {w : ℕ} (hw : w ∣ 8) {bs : List UInt8} {i v : ℕ}
    (hi : i * w / 8 < bs.length) (hv : v < 2 ^ w) (j : ℕ) :
    field w (orField w bs i v) j = if j = i then field w bs i ||| v else field w bs j := by
  have hshift : v <<< (i * w % 8) < 2 ^ 8 := by
    calc v <<< (i * w % 8) = v * 2 ^ (i * w % 8) := Nat.shiftLeft_eq _ _
      _ < 2 ^ w * 2 ^ (i * w % 8) := Nat.mul_lt_mul_of_pos_right hv (Nat.two_pow_pos _)
      _ = 2 ^ (i * w % 8 + w) := by rw [← pow_add, Nat.add_comm]
      _ ≤ 2 ^ 8 := Nat.pow_le_pow_right (by omega) (field_end_le hw i)
  have hbyte : ∀ n, ((orField w bs i v).getD n 0).toNat =
      if n = i * w / 8 then (bs.getD n 0).toNat ||| v <<< (i * w % 8)
      else (bs.getD n 0).toNat := by
    intro n
    by_cases hn : n = i * w / 8
    · subst hn
      rw [orField, List.getD_eq_getElem?_getD, List.getElem?_set_self hi, if_pos rfl,
        Option.getD_some, UInt8.toNat_or, UInt8.toNat_ofNat', Nat.mod_eq_of_lt hshift]
    · rw [orField, List.getD_eq_getElem?_getD, List.getElem?_set_ne (Ne.symm hn), if_neg hn,
        List.getD_eq_getElem?_getD]
  refine Nat.eq_of_testBit_eq fun m => ?_
  by_cases hj : j = i
  · subst hj
    rw [if_pos rfl, Nat.testBit_or, testBit_field, testBit_field, hbyte, if_pos rfl,
      Nat.testBit_or, Nat.testBit_shiftLeft]
    by_cases hm : m < w
    · simp [hm]
    · simp [hm, Nat.testBit_lt_two_pow (hv.trans_le (Nat.pow_le_pow_right (by omega)
        (Nat.le_of_not_lt hm)))]
  · rw [if_neg hj, testBit_field, testBit_field, hbyte]
    by_cases hsame : j * w / 8 = i * w / 8
    · rw [if_pos hsame, Nat.testBit_or, Nat.testBit_shiftLeft]
      by_cases hm : m < w
      · rcases field_apart hsame hj with h | h
        · have : v.testBit (j * w % 8 + m - i * w % 8) = false :=
            Nat.testBit_lt_two_pow (hv.trans_le (Nat.pow_le_pow_right (by omega) (by omega)))
          simp [this]
        · simp [show ¬ i * w % 8 ≤ j * w % 8 + m by omega]
      · simp [hm]
    · rw [if_neg hsame]

/-- Byte strings with the same fields are equal. -/
theorem eq_of_field_eq {w : ℕ} (hw : w ∣ 8) {bs cs : List UInt8} (hlen : bs.length = cs.length)
    (h : ∀ i, i * w / 8 < bs.length → field w bs i = field w cs i) : bs = cs := by
  have hw0 : 0 < w := Nat.pos_of_dvd_of_pos hw (by omega)
  refine List.ext_getElem hlen fun n hn hn' => UInt8.toNat_inj.mp (Nat.eq_of_testBit_eq fun m => ?_)
  by_cases hm : m < 8
  · -- the bit is in the field that starts at or before it
    obtain ⟨c, hc⟩ := hw
    have hidx : (n * c + m / w) * w = 8 * n + m / w * w := by rw [hc]; ring
    have hdm := Nat.div_add_mod m w
    have hlt : m / w * w < 8 := (Nat.div_mul_le_self m w).trans_lt hm
    have hdiv : (n * c + m / w) * w / 8 = n := by omega
    have hmod : (n * c + m / w) * w % 8 = m / w * w := by omega
    have hbit := congrArg (fun x => x.testBit (m % w)) (h (n * c + m / w) (by omega))
    have hsum : m / w * w + m % w = m := by rw [Nat.mul_comm]; exact hdm
    simpa [testBit_field, hdiv, hmod, Nat.mod_lt m hw0, hsum, List.getD_eq_getElem?_getD,
      List.getElem?_eq_getElem hn, List.getElem?_eq_getElem hn'] using hbit
  · rw [Nat.testBit_lt_two_pow (bs[n].toNat_lt.trans_le (Nat.pow_le_pow_right (by omega)
      (Nat.le_of_not_lt hm))), Nat.testBit_lt_two_pow (cs[n].toNat_lt.trans_le
      (Nat.pow_le_pow_right (by omega) (Nat.le_of_not_lt hm)))]

end Lachesis.Core
