import Lachesis.Core.ByteRecords
import Lachesis.Core.Run
import Mathlib.Data.Nat.Digits.Lemmas

/-!
# Arrays of small numbers

`count` numbers of `bits` bits each are written one after another, least significant bit first, so a
number may begin in one byte and end in the next. The writer and the reader keep the bits that are
not in whole bytes yet in a buffer of 16 bits.
-/

namespace Lachesis.Utils

open Lachesis.Core

/-- The ways the functions of `utils/bits.go` panic. -/
inductive BitsPanic
  | tooBigSize
  | needSizeBytesForWriting
  | needSizeBytesForReading
  | onlyPositivesAccepts
  | tooBigNumber
  | arrayIsFull
  | noNumbersMore
  | indexOutOfRange
  deriving DecidableEq, Repr

/-- `utils.BitArray` -/
structure BitArray where
  bits : ℕ
  count : ℕ
  size : ℕ
  deriving DecidableEq, Repr

/-- `utils.BitArrayWriter` -/
structure BitArrayWriter extends BitArray where
  offset : ℕ
  raw : List UInt8
  i : ℕ
  buf : ℕ
  n : ℕ
  deriving DecidableEq, Repr

/-- `utils.BitArrayReader` -/
structure BitArrayReader extends BitArray where
  offset : ℕ
  raw : List UInt8
  mask : ℕ
  i : ℕ
  buf : ℕ
  n : ℕ
  deriving DecidableEq, Repr

namespace BitArray

/-- `calcSize`; the product has 64 bits. -/
def calcSize (bits count : ℕ) : ℕ :=
  let bits := bits * count % 2 ^ 64
  if bits % 8 > 0 then bits / 8 + 1 else bits / 8

/-- `NewBitArray` -/
def new (bits count : ℕ) : Except BitsPanic BitArray :=
  if bits ≥ 8 then .error .tooBigSize
  else .ok { bits, count, size := calcSize bits count }

def writer (a : BitArray) (w : List UInt8) : Except BitsPanic BitArrayWriter :=
  if w.length ≠ a.size then .error .needSizeBytesForWriting
  else .ok { toBitArray := a, offset := 0, raw := w, i := 0, buf := 0, n := 0 }

def reader (a : BitArray) (r : List UInt8) : Except BitsPanic BitArrayReader :=
  if r.length ≠ a.size then .error .needSizeBytesForReading
  else .ok { toBitArray := a, offset := 0, raw := r, mask := 2 ^ a.bits % 2 ^ 16 - 1, i := 0,
             buf := 0, n := 0 }

end BitArray

namespace BitArrayWriter

/-- A round of the loop of `Push`: a whole byte leaves the buffer. -/
def nextByte (a : BitArrayWriter) : BitArrayWriter :=
  { a with offset := a.offset + 1, buf := a.buf >>> 8, n := a.n - 8 }

/-- `BitArrayWriter.Push`; its loop takes a round for each eight bits. -/
def push (a : BitArrayWriter) (v : ℤ) : Except BitsPanic BitArrayWriter :=
  if v < 0 then .error .onlyPositivesAccepts
  else if v ≥ 2 ^ a.bits then .error .tooBigNumber
  else if a.i ≥ a.count then .error .arrayIsFull
  else
    let buf := (a.buf + v.toNat <<< a.n % 2 ^ 16) % 2 ^ 16
    let n := a.n + a.bits
    if a.offset < a.raw.length then
      let a := { a with buf, n, raw := a.raw.set a.offset (UInt8.ofNat buf) }
      let a := nextByte^[n / 8] a
      .ok { a with i := a.i + 1 }
    else .error .indexOutOfRange

/-- The numbers pushed one after another. -/
def pushAll (a : BitArrayWriter) (vs : List ℕ) : Except BitsPanic BitArrayWriter :=
  vs.foldlM (fun a (v : ℕ) => a.push v) a

end BitArrayWriter

namespace BitArrayReader

/-- The first part of `Pop`: another byte, if the buffer has too few bits. -/
def refill (a : BitArrayReader) : Except BitsPanic BitArrayReader :=
  if a.n < a.bits then
    match a.raw[a.offset]? with
    | none => .error .indexOutOfRange
    | some v =>
      .ok { a with offset := a.offset + 1, buf := (a.buf + v.toNat <<< a.n % 2 ^ 16) % 2 ^ 16,
                   n := a.n + 8 }
  else .ok a

def pop (a : BitArrayReader) : Except BitsPanic (ℕ × BitArrayReader) :=
  if a.i ≥ a.count then .error .noNumbersMore
  else do
    let a ← a.refill
    .ok (a.buf &&& a.mask, { a with i := a.i + 1, buf := a.buf >>> a.bits, n := a.n - a.bits })

/-- The next numbers, one after another. -/
def popAll : ℕ → BitArrayReader → Except BitsPanic (List ℕ)
  | 0, _ => .ok []
  | k + 1, a => do
    let r ← a.pop
    let vs ← popAll k r.2
    .ok (r.1 :: vs)

end BitArrayReader

/-- The numbers are pushed into a zeroed buffer of `Size()` bytes, and as many are popped. -/
def BitArray.roundTrip (bits : ℕ) (vs : List ℕ) : Except BitsPanic (List ℕ) := do
  let a ← BitArray.new bits vs.length
  let w ← a.writer (List.replicate a.size 0)
  let w ← w.pushAll vs
  let r ← a.reader w.raw
  r.popAll vs.length

/-! ### The writer

After some pushes the whole bytes and the buffer together write the number whose digits to the base
`2 ^ bits` are the pushed ones.
-/

namespace BitArrayWriter

variable {bits : ℕ} {vs : List ℕ} {w w' : BitArrayWriter} {v : ℕ}

/-- The number that the digits write. -/
def total (bits : ℕ) (vs : List ℕ) : ℕ := Nat.ofDigits (2 ^ bits) vs

lemma total_append_singleton (bits : ℕ) (vs : List ℕ) (v : ℕ) :
    total bits (vs ++ [v]) = total bits vs + 2 ^ (bits * vs.length) * v := by
  simp [total, Nat.ofDigits_append, pow_mul]

lemma total_lt (hbits : 0 < bits) (h : ∀ v ∈ vs, v < 2 ^ bits) :
    total bits vs < 2 ^ (bits * vs.length) := by
  rw [pow_mul]
  exact Nat.ofDigits_lt_base_pow_length (Nat.one_lt_two_pow hbits.ne') h

/-- The writer has taken `vs`. The bytes before the offset are final. -/
structure Took (w : BitArrayWriter) (vs : List ℕ) : Prop where
  i : w.i = vs.length
  bits : 8 * w.offset + w.n = w.bits * vs.length
  n : w.n < 8
  buf : w.buf = total w.bits vs / 256 ^ w.offset
  done : leNat w.raw % 256 ^ w.offset = total w.bits vs % 256 ^ w.offset
  rest : leNat w.raw < 256 ^ (w.offset + 1)

lemma took_nil (a : BitArray) : Took
    { toBitArray := a, offset := 0, raw := List.replicate a.size 0, i := 0, buf := 0, n := 0 } [] where
  i := rfl
  bits := by simp
  n := by simp
  buf := by simp [total]
  done := by simp [Nat.mod_one]
  rest := by simp

lemma pow_256 (k : ℕ) : 256 ^ k = 2 ^ (8 * k) := by
  rw [pow_mul]
  norm_num

lemma Took.buf_lt (h : Took w vs) (hbits : 0 < w.bits) (hvs : ∀ v ∈ vs, v < 2 ^ w.bits) :
    w.buf < 2 ^ w.n := by
  rw [h.buf, Nat.div_lt_iff_lt_mul (by positivity), pow_256, ← pow_add, add_comm, h.bits]
  exact total_lt hbits hvs

lemma Took.total_div (h : Took w vs) (v : ℕ) :
    total w.bits (vs ++ [v]) / 256 ^ w.offset = w.buf + v <<< w.n := by
  rw [total_append_singleton, ← h.bits, pow_add, ← pow_256, mul_assoc,
    Nat.add_mul_div_left _ _ (by positivity), h.buf, Nat.shiftLeft_eq, mul_comm v]

lemma Took.total_mod (h : Took w vs) (v : ℕ) :
    total w.bits (vs ++ [v]) % 256 ^ w.offset = total w.bits vs % 256 ^ w.offset := by
  rw [total_append_singleton, ← h.bits, pow_add, ← pow_256, mul_assoc, Nat.add_mul_mod_self_left]

/-- The loop takes one round at most, since the bits are fewer than eight. -/
lemma nextByte_rounds {n : ℕ} (hn : w.n = n) (hlt : n < 16) : nextByte^[n / 8] w =
    { w with offset := w.offset + n / 8, buf := w.buf / 256 ^ (n / 8), n := n % 8 } := by
  subst hn
  by_cases h : w.n < 8
  · simp [Nat.div_eq_of_lt h, Nat.mod_eq_of_lt h]
  · have hone : w.n / 8 = 1 := by omega
    have hmod : w.n - 8 = w.n % 8 := by omega
    simp [hone, nextByte, hmod, Nat.shiftRight_eq_div_pow]

lemma Took.leNat_set (h : Took w vs) (v : ℕ) (hoffset : w.offset < w.raw.length) :
    leNat (w.raw.set w.offset
      (UInt8.ofNat (total w.bits (vs ++ [v]) / 256 ^ w.offset))) =
      total w.bits (vs ++ [v]) % 256 ^ (w.offset + 1) := by
  rw [Core.leNat_set hoffset, Nat.div_eq_of_lt h.rest, mul_zero, add_zero, h.done, ← h.total_mod v,
    pow_succ, Nat.mod_mul, UInt8.toNat_ofNat']

lemma Took.push_error (h : Took w vs) (hv : v < 2 ^ w.bits) (hcount : vs.length < w.count)
    (hoffset : w.raw.length ≤ w.offset) : w.push v = .error .indexOutOfRange := by
  have hi := h.i
  have hv' : ¬ (2 ^ w.bits : ℤ) ≤ v := by exact_mod_cast hv.not_ge
  simp [push, hi, hv', hcount.not_ge, hoffset.not_gt]

section Push

variable (h : Took w vs) (hpos : 0 < w.bits) (hlt : w.bits < 8) (hvs : ∀ v ∈ vs, v < 2 ^ w.bits)
  (hv : v < 2 ^ w.bits)
include h hpos hlt hvs hv

/-- The buffer of 16 bits does not overflow. -/
lemma Took.buf_add :
    (w.buf + v <<< w.n % 2 ^ 16) % 2 ^ 16 = total w.bits (vs ++ [v]) / 256 ^ w.offset := by
  have hshift : v <<< w.n < 2 ^ 15 := by
    rw [Nat.shiftLeft_eq]
    calc v * 2 ^ w.n < 2 ^ w.bits * 2 ^ w.n := Nat.mul_lt_mul_of_pos_right hv (by positivity)
      _ = 2 ^ (w.bits + w.n) := (pow_add _ _ _).symm
      _ ≤ 2 ^ 15 := Nat.pow_le_pow_right (by norm_num) (by have := h.n; omega)
  have hbuf : w.buf < 2 ^ 8 :=
    (h.buf_lt hpos hvs).trans (Nat.pow_lt_pow_right (by norm_num) h.n)
  have hsum : w.buf + v <<< w.n < 2 ^ 16 := (Nat.add_lt_add hbuf hshift).trans (by norm_num)
  rw [h.total_div, Nat.mod_eq_of_lt (hshift.trans (by norm_num)), Nat.mod_eq_of_lt hsum]

lemma Took.push_eq (hcount : vs.length < w.count) (hoffset : w.offset < w.raw.length) :
    w.push v = .ok { w with
      offset := w.offset + (w.n + w.bits) / 8
      raw := w.raw.set w.offset (UInt8.ofNat (total w.bits (vs ++ [v]) / 256 ^ w.offset))
      i := w.i + 1
      buf := total w.bits (vs ++ [v]) / 256 ^ w.offset / 256 ^ ((w.n + w.bits) / 8)
      n := (w.n + w.bits) % 8 } := by
  have hv' : ¬ (2 ^ w.bits : ℤ) ≤ v := by exact_mod_cast hv.not_ge
  have hi : ¬ w.count ≤ w.i := by
    rw [h.i]
    exact hcount.not_ge
  have hn : w.n + w.bits < 16 := by
    have := h.n
    omega
  simp only [push, (Int.natCast_nonneg v).not_gt, hv', hi, hoffset, if_true, if_false,
    Int.toNat_natCast, h.buf_add hpos hlt hvs hv]
  rw [nextByte_rounds ?_ hn]
  rfl

/-- The writer adds a digit. -/
lemma Took.push (hcount : vs.length < w.count) (hoffset : w.offset < w.raw.length) :
    ∃ w', w.push v = .ok w' ∧ w'.toBitArray = w.toBitArray ∧ w'.raw.length = w.raw.length ∧
      Took w' (vs ++ [v]) ∧
      leNat w'.raw = total w.bits (vs ++ [v]) % 256 ^ (w.offset + 1) := by
  have hraw := h.leNat_set v hoffset
  refine ⟨_, h.push_eq hpos hlt hvs hv hcount hoffset, rfl, List.length_set, ?_, hraw⟩
  have hstep : (w.n + w.bits) / 8 ≤ 1 := by
    have := h.n
    omega
  constructor
  · simp [h.i]
  · have := h.bits
    simp only [List.length_append, List.length_singleton, mul_add, mul_one]
    omega
  · exact Nat.mod_lt _ (by norm_num)
  · rw [Nat.div_div_eq_div_mul, ← pow_add]
  · rw [hraw]
    apply Nat.mod_mod_of_dvd
    apply pow_dvd_pow
    exact Nat.add_le_add_left hstep _
  · rw [hraw]
    apply (Nat.mod_lt _ (by positivity)).trans_le
    apply Nat.pow_le_pow_right (by norm_num)
    exact Nat.succ_le_succ (Nat.le_add_right _ _)

end Push

/-! ### All pushes -/

/-- A writer at its start with `size` zero bytes. -/
def start (a : BitArray) : BitArrayWriter :=
  { toBitArray := a, offset := 0, raw := List.replicate a.size 0, i := 0, buf := 0, n := 0 }

section PushAll

variable {a : BitArray} (hpos : 0 < a.bits) (hlt : a.bits < 8)

lemma pushAll_append_singleton (w : BitArrayWriter) (vs : List ℕ) (v : ℕ) :
    w.pushAll (vs ++ [v]) = w.pushAll vs >>= fun w => w.push v := by
  simp only [pushAll, List.foldlM_append, List.foldlM_cons, List.foldlM_nil]
  cases List.foldlM (fun w (v : ℕ) => BitArrayWriter.push w v) w vs with
  | error e => rfl
  | ok w => exact bind_pure (w.push v)

lemma Took.offset_eq (h : Took w vs) : w.offset = w.bits * vs.length / 8 := by
  have := h.bits
  have := h.n
  omega

include hpos hlt

/-- With room for the byte in which each number begins, all pushes succeed. The last one writes the
byte in which its number begins and nothing after it. -/
lemma exists_pushAll_eq_ok (hvs : ∀ v ∈ vs, v < 2 ^ a.bits) (hcount : vs.length ≤ a.count)
    (hroom : ∀ k < vs.length, a.bits * k / 8 < a.size) :
    ∃ w, (start a).pushAll vs = .ok w ∧ w.toBitArray = a ∧ w.raw.length = a.size ∧ Took w vs ∧
      (vs ≠ [] → leNat w.raw =
        total a.bits vs % 256 ^ (a.bits * (vs.length - 1) / 8 + 1)) := by
  induction vs using List.reverseRecOn with
  | nil => exact ⟨_, rfl, rfl, List.length_replicate, took_nil a, fun h => absurd rfl h⟩
  | append_singleton vs v ih =>
    rw [List.length_append, List.length_singleton] at hcount hroom
    obtain ⟨w, hw, rfl, hlen, htook, -⟩ := ih (fun u hu => hvs u (List.mem_append_left _ hu))
      (Nat.le_of_succ_le hcount) fun k hk => hroom k (Nat.lt_succ_of_lt hk)
    have hoffset : w.offset < w.raw.length := by
      rw [hlen, htook.offset_eq]
      exact hroom _ (Nat.lt_succ_self _)
    obtain ⟨w', hw', ha, hlen', htook', hraw⟩ := htook.push hpos hlt
      (fun u hu => hvs u (List.mem_append_left _ hu)) (hvs v (by simp)) hcount hoffset
    refine ⟨w', ?_, ha, hlen'.trans hlen, htook', fun _ => ?_⟩
    · rw [pushAll_append_singleton, hw]
      exact hw'
    · rw [hraw, htook.offset_eq, List.length_append, List.length_singleton, Nat.add_sub_cancel]

lemma pushAll_eq_error (hvs : ∀ v ∈ vs, v < 2 ^ a.bits) (hcount : vs.length ≤ a.count)
    (hne : vs ≠ []) (hroom : a.size ≤ a.bits * (vs.length - 1) / 8) :
    (start a).pushAll vs = .error .indexOutOfRange := by
  induction vs using List.reverseRecOn with
  | nil => exact absurd rfl hne
  | append_singleton vs v ih =>
    rw [List.length_append, List.length_singleton] at hcount
    rw [List.length_append, List.length_singleton, Nat.add_sub_cancel] at hroom
    have hvs' : ∀ u ∈ vs, u < 2 ^ a.bits := fun u hu => hvs u (List.mem_append_left _ hu)
    rw [pushAll_append_singleton]
    by_cases hearlier : ∀ k < vs.length, a.bits * k / 8 < a.size
    · obtain ⟨w, hw, rfl, hlen, htook, -⟩ :=
        exists_pushAll_eq_ok hpos hlt hvs' (Nat.le_of_succ_le hcount) hearlier
      rw [hw]
      apply htook.push_error (hvs v (by simp)) hcount
      rw [hlen, htook.offset_eq]
      exact hroom
    · push Not at hearlier
      obtain ⟨k, hk, hsize⟩ := hearlier
      have hlast : a.size ≤ a.bits * (vs.length - 1) / 8 :=
        hsize.trans (Nat.div_le_div_right (Nat.mul_le_mul_left _ (Nat.le_sub_one_of_lt hk)))
      rw [ih hvs' (Nat.le_of_succ_le hcount) (List.ne_nil_of_length_pos (Nat.zero_lt_of_lt hk)) hlast]
      rfl

end PushAll

end BitArrayWriter

/-! ### The reader

After some pops the bits of the bytes before the offset that are not popped yet are in the buffer.
-/

namespace BitArrayReader

variable {r r' : BitArrayReader} {k : ℕ}

/-- The reader has given `k` numbers. -/
structure Gave (r : BitArrayReader) (k : ℕ) : Prop where
  i : r.i = k
  bits : 8 * r.offset = r.bits * k + r.n
  buf : r.buf = leNat r.raw % 256 ^ r.offset / 2 ^ (r.bits * k)
  mask : r.mask = 2 ^ r.bits - 1

lemma Gave.pow_offset (h : Gave r k) : 256 ^ r.offset = 2 ^ (r.bits * k) * 2 ^ r.n := by
  rw [BitArrayWriter.pow_256, h.bits, pow_add]

lemma Gave.buf_lt (h : Gave r k) : r.buf < 2 ^ r.n := by
  rw [h.buf, Nat.div_lt_iff_lt_mul (by positivity), mul_comm, ← h.pow_offset]
  exact Nat.mod_lt _ (by positivity)

lemma Gave.buf_add (h : Gave r k) (hlt : r.bits < 8) (hfew : r.n < r.bits)
    (hoffset : r.offset < r.raw.length) :
    (r.buf + r.raw[r.offset].toNat <<< r.n % 2 ^ 16) % 2 ^ 16 =
      leNat r.raw % 256 ^ (r.offset + 1) / 2 ^ (r.bits * k) := by
  have hbyte := r.raw[r.offset].toNat_lt
  have hpow : 2 ^ r.n ≤ 2 ^ 7 := Nat.pow_le_pow_right (by norm_num) (by omega)
  have hshift : r.raw[r.offset].toNat <<< r.n < 2 ^ 15 := by
    rw [Nat.shiftLeft_eq]
    calc r.raw[r.offset].toNat * 2 ^ r.n < 2 ^ 8 * 2 ^ r.n :=
          Nat.mul_lt_mul_of_pos_right hbyte (by positivity)
      _ ≤ 2 ^ 8 * 2 ^ 7 := Nat.mul_le_mul_left _ hpow
      _ = 2 ^ 15 := by norm_num
  have hsum : r.buf + r.raw[r.offset].toNat <<< r.n < 2 ^ 16 :=
    (Nat.add_lt_add (h.buf_lt.trans_le hpow) hshift).trans (by norm_num)
  rw [Nat.mod_eq_of_lt (hshift.trans (by norm_num)), Nat.mod_eq_of_lt hsum, pow_succ, Nat.mod_mul,
    ← toNat_getElem _ hoffset, h.pow_offset, mul_assoc, Nat.add_mul_div_left _ _ (by positivity),
    ← h.pow_offset, ← h.buf, Nat.shiftLeft_eq, mul_comm (2 ^ r.n)]

lemma Gave.refill (h : Gave r k) (hlt : r.bits < 8) (hroom : r.bits * (k + 1) ≤ 8 * r.raw.length) :
    ∃ r', r.refill = .ok r' ∧ r'.toBitArray = r.toBitArray ∧ r'.raw = r.raw ∧ r'.bits ≤ r'.n ∧
      Gave r' k := by
  have hbits := h.bits
  unfold BitArrayReader.refill
  split_ifs with hfew
  · have hoffset : r.offset < r.raw.length := by
      rw [mul_add] at hroom
      omega
    simp only [List.getElem?_eq_getElem hoffset]
    refine ⟨_, rfl, rfl, rfl, hlt.le.trans (Nat.le_add_left _ _), h.i, ?_, ?_, h.mask⟩
    · simp only
      omega
    · exact h.buf_add hlt hfew hoffset
  · exact ⟨r, rfl, rfl, rfl, Nat.le_of_not_lt hfew, h⟩

lemma Gave.and_mask (h : Gave r k) (henough : r.bits ≤ r.n) :
    r.buf &&& r.mask = leNat r.raw / 2 ^ (r.bits * k) % 2 ^ r.bits := by
  rw [h.mask, Nat.and_two_pow_sub_one_eq_mod, h.buf, h.pow_offset, Nat.mod_mul_right_div_self,
    Nat.mod_mod_of_dvd _ (pow_dvd_pow 2 henough)]

/-- The reader returns the next digit. -/
lemma Gave.pop (h : Gave r k) (hlt : r.bits < 8) (hcount : k < r.count)
    (hroom : r.bits * (k + 1) ≤ 8 * r.raw.length) :
    ∃ r', r.pop = .ok (leNat r.raw / 2 ^ (r.bits * k) % 2 ^ r.bits, r') ∧
      r'.toBitArray = r.toBitArray ∧ r'.raw = r.raw ∧ Gave r' (k + 1) := by
  obtain ⟨r₁, hrefill, harray, hraw, henough, hgave⟩ := h.refill hlt hroom
  have hi : ¬ r.count ≤ r.i := by
    rw [h.i]
    exact hcount.not_ge
  refine ⟨{ r₁ with i := r₁.i + 1, buf := r₁.buf >>> r₁.bits, n := r₁.n - r₁.bits }, ?_, harray,
    hraw, ?_⟩
  · simp only [BitArrayReader.pop, hi, if_false, hrefill]
    rw [← hraw, ← harray, ← hgave.and_mask henough]
    rfl
  · have hbits := hgave.bits
    constructor
    · simp [hgave.i]
    · simp only [mul_add, mul_one]
      omega
    · simp only
      rw [Nat.shiftRight_eq_div_pow, hgave.buf, Nat.div_div_eq_div_mul, ← pow_add, mul_add, mul_one]
    · exact hgave.mask

lemma Gave.popAll {m : ℕ} (h : Gave r k) (hlt : r.bits < 8) (hcount : k + m ≤ r.count)
    (hroom : r.bits * (k + m) ≤ 8 * r.raw.length) :
    r.popAll m =
      .ok ((List.range' k m).map fun j => leNat r.raw / 2 ^ (r.bits * j) % 2 ^ r.bits) := by
  induction m generalizing r k with
  | zero => rfl
  | succ m ih =>
    have hnext : r.bits * (k + 1) ≤ 8 * r.raw.length :=
      (Nat.mul_le_mul_left _ (by omega)).trans hroom
    obtain ⟨r', hpop, harray, hraw, hgave⟩ := h.pop hlt (by omega) hnext
    have hrest := ih hgave (by rwa [harray]) (by rw [harray]; omega)
      (by rw [harray, hraw, add_right_comm]; exact hroom)
    rw [harray, hraw] at hrest
    rw [BitArrayReader.popAll, List.range'_succ, List.map_cons]
    exact bind_eq_ok_iff.mpr ⟨_, hpop, bind_eq_ok_iff.mpr ⟨_, hrest, rfl⟩⟩

end BitArrayReader

/-! ### The round trip -/

namespace BitArray

open BitArrayWriter

variable {bits : ℕ} {vs : List ℕ}

/-- The first digits of `n` to the base `2 ^ bits`. -/
def digits (bits count n : ℕ) : List ℕ :=
  (List.range' 0 count).map fun j => n / 2 ^ (bits * j) % 2 ^ bits

lemma total_digits (bits count n : ℕ) :
    total bits (digits bits count n) = n % 2 ^ (bits * count) := by
  induction count with
  | zero => simp [digits, total, Nat.mod_one]
  | succ count ih =>
    have hsucc : digits bits (count + 1) n =
        digits bits count n ++ [n / 2 ^ (bits * count) % 2 ^ bits] := by
      simp [digits, List.range'_concat]
    have hlen : (digits bits count n).length = count := by simp [digits]
    rw [hsucc, total_append_singleton, ih, hlen, mul_add, mul_one, pow_add, Nat.mod_mul]

lemma digits_eq_iff (hpos : 0 < bits) (hvs : ∀ v ∈ vs, v < 2 ^ bits) (n : ℕ) :
    digits bits vs.length n = vs ↔ n % 2 ^ (bits * vs.length) = total bits vs := by
  rw [← total_digits]
  constructor
  · intro h
    rw [h]
  · apply Nat.ofDigits_inj_of_len_eq (Nat.one_lt_two_pow hpos.ne')
    · simp [digits]
    · intro v hv
      obtain ⟨j, -, rfl⟩ := List.mem_map.mp hv
      exact Nat.mod_lt _ (by positivity)
    · exact hvs

/-- The writing ends in the byte in which the last number begins, so the round trip needs the last
number to end there too; and the number of bits has to fit 64 bits. -/
def Fits (bits : ℕ) (vs : List ℕ) : Prop :=
  bits * vs.length < 2 ^ 64 ∧ ∀ v ∈ vs.getLast?, v < 2 ^ (8 - bits * (vs.length - 1) % 8)

instance (bits : ℕ) (vs : List ℕ) : Decidable (Fits bits vs) :=
  inferInstanceAs (Decidable (_ ∧ ∀ v ∈ vs.getLast?, v < 2 ^ (8 - bits * (vs.length - 1) % 8)))

lemma calcSize_eq {count : ℕ} (h : bits * count < 2 ^ 64) :
    calcSize bits count = (bits * count + 7) / 8 := by
  rw [calcSize, Nat.mod_eq_of_lt h]
  split_ifs <;> omega

/-- The byte in which the last number begins has the bits above it free. -/
lemma total_lt_pow_iff (hpos : 0 < bits) {us : List ℕ} {v : ℕ} (hus : ∀ u ∈ us, u < 2 ^ bits) :
    total bits (us ++ [v]) < 256 ^ (bits * us.length / 8 + 1) ↔
      v < 2 ^ (8 - bits * us.length % 8) := by
  have hexp : 8 * (bits * us.length / 8 + 1) =
      bits * us.length + (8 - bits * us.length % 8) := by omega
  rw [total_append_singleton, pow_256, hexp, pow_add, mul_comm (2 ^ (bits * us.length)) (2 ^ (8 - _)),
    ← Nat.div_lt_iff_lt_mul (by positivity), Nat.add_mul_div_left _ _ (by positivity),
    Nat.div_eq_of_lt (total_lt hpos hus), zero_add]

/-- The array that `NewBitArray` makes for the numbers. -/
def arrayFor (bits : ℕ) (vs : List ℕ) : BitArray := ⟨bits, vs.length, calcSize bits vs.length⟩

lemma roundTrip_eq (hlt : bits ≤ 7) : roundTrip bits vs =
    ((start (arrayFor bits vs)).pushAll vs >>= fun w =>
      (arrayFor bits vs).reader w.raw >>= fun r => r.popAll vs.length) := by
  have hbits : ¬ 8 ≤ bits := by omega
  simp only [roundTrip, new, ge_iff_le, hbits, if_false]
  simp only [bind, Except.bind, writer, List.length_replicate, ne_eq, not_true_eq_false, if_false]
  rfl

section RoundTrip

variable (hpos : 1 ≤ bits) (hlt : bits ≤ 7) (hvs : ∀ v ∈ vs, v < 2 ^ bits)
include hpos hlt hvs

lemma roundTrip_eq_error (hbig : 2 ^ 64 ≤ bits * vs.length) :
    roundTrip bits vs = .error .indexOutOfRange := by
  have hne : vs ≠ [] := by
    rintro rfl
    simp at hbig
  have hshort : calcSize bits vs.length ≤ bits * (vs.length - 1) / 8 := by
    have hle := Nat.mod_lt (bits * vs.length) (show 0 < 2 ^ 64 by norm_num)
    have hmod := Nat.mod_add_div (bits * vs.length) (2 ^ 64)
    have hquot : 1 ≤ bits * vs.length / 2 ^ 64 := (Nat.one_le_div_iff (by norm_num)).mpr hbig
    rw [calcSize, Nat.mul_sub_one]
    split_ifs <;> omega
  rw [roundTrip_eq hlt, pushAll_eq_error (a := arrayFor bits vs) hpos (Nat.lt_succ_of_le hlt) hvs
    le_rfl hne hshort]
  rfl

lemma exists_roundTrip_eq_digits (hfew : bits * vs.length < 2 ^ 64) :
    ∃ n, roundTrip bits vs = .ok (digits bits vs.length n) ∧
      (vs ≠ [] → n = total bits vs % 256 ^ (bits * (vs.length - 1) / 8 + 1)) := by
  have hsize : (arrayFor bits vs).size = (bits * vs.length + 7) / 8 := calcSize_eq hfew
  have hroom : ∀ k < vs.length, bits * k / 8 < (arrayFor bits vs).size := by
    intro k hk
    have hle : bits * k + bits ≤ bits * vs.length := Nat.mul_le_mul_left bits hk
    omega
  obtain ⟨w, hw, harray, hlen, -, hraw⟩ := exists_pushAll_eq_ok (a := arrayFor bits vs) hpos
    (Nat.lt_succ_of_le hlt) hvs le_rfl hroom
  have hmask : 2 ^ bits % 2 ^ 16 - 1 = 2 ^ bits - 1 := by
    rw [Nat.mod_eq_of_lt (Nat.pow_lt_pow_right (by norm_num) (by omega))]
  have hgave : BitArrayReader.Gave
      { toBitArray := arrayFor bits vs, offset := 0, raw := w.raw, mask := 2 ^ bits % 2 ^ 16 - 1,
        i := 0, buf := 0, n := 0 } 0 :=
    ⟨rfl, by simp, by simp [Nat.mod_one], hmask⟩
  have hpop := hgave.popAll (m := vs.length) (Nat.lt_succ_of_le hlt) (by simp [arrayFor])
    (by rw [zero_add, hlen, hsize]; change bits * _ ≤ _; omega)
  refine ⟨leNat w.raw, ?_, hraw⟩
  rw [roundTrip_eq hlt, hw]
  simp only [bind, Except.bind, reader, hlen, ne_eq, not_true_eq_false, if_false]
  exact hpop

/-- The numbers come back, with no write or read out of range, if and only if the last one ends in
the byte in which it begins and the number of bits fits 64 bits. -/
theorem roundTrip_eq_ok_iff : roundTrip bits vs = .ok vs ↔ Fits bits vs := by
  by_cases hfew : bits * vs.length < 2 ^ 64
  · obtain ⟨n, hn, htotal⟩ := exists_roundTrip_eq_digits hpos hlt hvs hfew
    rw [hn, Except.ok.injEq, digits_eq_iff hpos hvs]
    cases vs using List.reverseRecOn with
    | nil => simp [Fits, total, Nat.mod_one]
    | append_singleton us v =>
      have hus : ∀ u ∈ us, u < 2 ^ bits := fun u hu => hvs u (List.mem_append_left _ hu)
      have hsmall : n < 2 ^ (bits * (us ++ [v]).length) := by
        rw [htotal (by simp)]
        exact (Nat.mod_le _ _).trans_lt (total_lt hpos hvs)
      have hlen : (us ++ [v]).length - 1 = us.length := by simp
      rw [Nat.mod_eq_of_lt hsmall, htotal (by simp), Nat.mod_eq_iff_lt (by positivity), hlen,
        total_lt_pow_iff hpos hus, Fits, and_iff_right hfew, hlen]
      simp
  · rw [roundTrip_eq_error hpos hlt hvs (Nat.le_of_not_lt hfew)]
    exact iff_of_false nofun fun hfits => hfew hfits.1

end RoundTrip

/-- Two of the three bits of the last number are in the first byte. -/
theorem not_roundTrip_threeBits : roundTrip 3 [0, 0, 7] = .ok [0, 0, 3] := by
  decide +kernel

theorem roundTrip_eq_ok_iff_threeBits :
    roundTrip 3 [0, 0, 3] = .ok [0, 0, 3] ∧ roundTrip 3 [0, 0, 7] ≠ .ok [0, 0, 7] := by
  constructor
  · exact (roundTrip_eq_ok_iff (by decide) (by decide) (by decide)).mpr (by decide)
  · intro h
    have hfits := (roundTrip_eq_ok_iff (by decide) (by decide) (by decide)).mp h
    exact absurd hfits (by decide)

end BitArray

end Lachesis.Utils
