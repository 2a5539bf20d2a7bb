import Lachesis.Core.Packing

/-!
# Bit arrays and buffers

The package `fast`: arrays of numbers of one, two or four bits, and buffers of a fixed size that are
read and written at a cursor. Every call may panic.

A slice of Go may be sliced again up to its capacity, so the bytes behind its end are part of the
model; a buffer reads them without noticing.
-/

namespace Lachesis.Fast

open Lachesis.Core

/-- The panics of the package, and of Go's indexing and slicing. -/
inductive Panic
  | outOfRange
  /-- `use 1 or 2 or 4 bits` -/
  | wrongBits
  /-- `need .Size() bytes for writing`, `need .Size() bytes for reading` -/
  | wrongSize
  /-- `only positives accepts` -/
  | negative
  /-- `too big number` -/
  | tooBig
  /-- `buffer overflow` -/
  | bufferOverflow
  deriving DecidableEq, Repr

/-! ### Bit arrays -/

/-- `fast.BitArray` -/
structure BitArray where
  bits : ℕ
  count : ℕ
  offset : ℕ
  size : ℕ

def calcSize (bits count : ℕ) : ℕ :=
  if 0 < bits * count % 8 then bits * count / 8 + 1 else bits * count / 8

def newBitArray (bits count : ℕ) : Except Panic BitArray :=
  if bits ≠ 1 ∧ bits ≠ 2 ∧ bits ≠ 4 then .error .wrongBits
  else .ok ⟨bits, count, 0, calcSize bits count⟩

/-- `fast.BitArrayWriter` -/
structure BitArrayWriter extends BitArray where
  raw : List UInt8

/-- `fast.BitArrayReader` -/
structure BitArrayReader extends BitArray where
  raw : List UInt8

namespace BitArray

def writer (a : BitArray) (w : List UInt8) : Except Panic BitArrayWriter :=
  if w.length ≠ a.size then .error .wrongSize else .ok ⟨a, w⟩

def reader (a : BitArray) (r : List UInt8) : Except Panic BitArrayReader :=
  if r.length ≠ a.size then .error .wrongSize else .ok ⟨a, r⟩

def byteOffset (a : BitArray) : ℕ := a.offset * a.bits / 8

/-- The bit of that byte at which the next number starts. -/
def bytePartOffset (a : BitArray) : ℕ := a.offset * a.bits % 8

def next (a : BitArray) : BitArray := { a with offset := a.offset + 1 }

end BitArray

def BitArrayWriter.push (a : BitArrayWriter) (v : ℤ) : Except Panic BitArrayWriter :=
  if v < 0 then .error .negative
  else if 2 ^ a.bits ≤ v then .error .tooBig
  else match a.raw[a.byteOffset]? with
    | none => .error .outOfRange
    | some b => .ok ⟨a.next,
        a.raw.set a.byteOffset (b ||| UInt8.ofNat (v.toNat <<< a.bytePartOffset))⟩

def BitArrayReader.pop (a : BitArrayReader) : Except Panic (ℕ × BitArrayReader) :=
  match a.raw[a.byteOffset]? with
  | none => .error .outOfRange
  | some b =>
    .ok (((b >>> UInt8.ofNat a.bytePartOffset) &&& UInt8.ofNat (2 ^ a.bits - 1)).toNat,
      ⟨a.next, a.raw⟩)

/-- The numbers pushed so far are the first fields, and the others are zero. -/
structure BitArrayWriter.Pushed (a : BitArrayWriter) (vs : List ℕ) : Prop where
  offset : a.offset = vs.length
  field : ∀ i, field a.bits a.raw i = vs.getD i 0

/-- A number of `bits` bits comes after those already pushed. -/
lemma BitArrayWriter.Pushed.push {a : BitArrayWriter} {vs : List ℕ} (h : a.Pushed vs)
    (hbits : a.bits ∣ 8) {v : ℕ} (hv : v < 2 ^ a.bits)
    (hroom : vs.length * a.bits / 8 < a.raw.length) :
    ∃ a', a.push v = .ok a' ∧ a'.Pushed (vs ++ [v]) ∧ a'.bits = a.bits ∧
      a'.raw.length = a.raw.length := by
  have hoff : a.byteOffset = vs.length * a.bits / 8 := by rw [BitArray.byteOffset, h.offset]
  have hget : a.raw[a.byteOffset]? = some (a.raw.getD a.byteOffset 0) := by
    rw [hoff, List.getD_eq_getElem?_getD, List.getElem?_eq_getElem hroom, Option.getD_some]
  have hv' : ¬ (2 ^ a.bits : ℤ) ≤ (v : ℤ) := by exact_mod_cast Nat.not_le.mpr hv
  refine ⟨⟨a.next, orField a.bits a.raw a.offset v⟩, ?_, ⟨?_, fun i => ?_⟩, rfl, by simp⟩
  · rw [BitArrayWriter.push, if_neg (by omega), if_neg hv', hget]
    rfl
  · simp [BitArray.next, h.offset]
  · simp only [BitArray.next]
    rw [field_orField hbits (by rw [h.offset]; exact hroom) hv, h.field, h.field, h.offset]
    by_cases hi : i = vs.length
    · simp [hi]
    · rw [if_neg hi]
      rcases Nat.lt_or_gt_of_ne hi with hlt | hgt
      · simp [List.getElem?_append_left hlt]
      · simp [List.getElem?_eq_none (l := vs) (i := i) (by omega),
          List.getElem?_eq_none (l := vs ++ [v]) (i := i) (by simp; omega)]

/-- `Pop` fails only behind the last byte. -/
lemma BitArrayReader.pop_eq_ok_iff {a : BitArrayReader} (hbits : a.bits ∣ 8) {n : ℕ}
    {a' : BitArrayReader} : a.pop = .ok (n, a') ↔ a.byteOffset < a.raw.length ∧
      n = field a.bits a.raw a.offset ∧ a' = ⟨a.next, a.raw⟩ := by
  have hpart := field_end_le hbits a.offset
  have hpow : 2 ^ a.bits ≤ 2 ^ 8 := Nat.pow_le_pow_right (by omega) (by omega)
  have hval : ∀ b : UInt8, ((b >>> UInt8.ofNat a.bytePartOffset) &&&
      UInt8.ofNat (2 ^ a.bits - 1)).toNat = (b.toNat >>> a.bytePartOffset) % 2 ^ a.bits := by
    intro b
    have hmask : (UInt8.ofNat (2 ^ a.bits - 1)).toNat = 2 ^ a.bits - 1 := by
      rw [UInt8.toNat_ofNat', Nat.mod_eq_of_lt (by omega)]
    have hshift : (UInt8.ofNat a.bytePartOffset).toNat % 8 = a.bytePartOffset := by
      rw [UInt8.toNat_ofNat', BitArray.bytePartOffset]
      omega
    rw [UInt8.toNat_and, UInt8.toNat_shiftRight, hmask, hshift, Nat.and_two_pow_sub_one_eq_mod]
  rw [pop]
  rcases Nat.lt_or_ge a.byteOffset a.raw.length with hlt | hge
  · rw [List.getElem?_eq_getElem hlt]
    have hfield : field a.bits a.raw a.offset =
        (a.raw[a.byteOffset].toNat >>> a.bytePartOffset) % 2 ^ a.bits := by
      rw [field, ← BitArray.byteOffset, ← BitArray.bytePartOffset, List.getD_eq_getElem?_getD,
        List.getElem?_eq_getElem hlt, Option.getD_some]
    simp only [Except.ok.injEq, Prod.mk.injEq, hval, hfield, hlt, true_and]
    exact and_congr eq_comm eq_comm
  · rw [List.getElem?_eq_none hge]
    simp [Nat.not_lt.mpr hge]

/-! ### Buffers -/

/-- A slice of bytes: its elements, and those behind them within its capacity. -/
structure Slice where
  data : List UInt8
  spare : List UInt8

namespace Slice

/-- The bytes up to the capacity. -/
def all (s : Slice) : List UInt8 := s.data ++ s.spare

/-- Slicing with both bounds. -/
def sub (s : Slice) (low : ℕ) (high : ℤ) : Except Panic (List UInt8) :=
  if low ≤ high ∧ high ≤ s.all.length then .ok ((s.all.take high.toNat).drop low)
  else .error .outOfRange

/-- Slicing from an offset to the end. -/
def suffix (s : Slice) (low : ℕ) : Except Panic Slice :=
  if low ≤ s.data.length then .ok ⟨s.data.drop low, s.spare⟩ else .error .outOfRange

lemma sub_of_append {s : Slice} {a b c : List UInt8} (h : s.data = a ++ b ++ c) :
    s.sub a.length (a.length + b.length : ℕ) = .ok b := by
  have hall : s.all = (a ++ b) ++ (c ++ s.spare) := by rw [all, h, List.append_assoc]
  have hlen : ((a.length + b.length : ℕ) : ℤ) ≤ s.all.length := by
    rw [hall, List.length_append, List.length_append]
    omega
  rw [sub, if_pos ⟨by omega, hlen⟩, hall, Int.toNat_natCast, ← List.length_append, List.take_left,
    List.drop_left]

lemma suffix_of_append {s : Slice} {a b : List UInt8} (h : s.data = a ++ b) :
    s.suffix a.length = .ok ⟨b, s.spare⟩ := by
  rw [suffix, if_pos (by simp [h]), h, List.drop_left]

lemma suffix_eq_ok_iff {s t : Slice} {n : ℕ} :
    s.suffix n = .ok t ↔ n ≤ s.data.length ∧ t = ⟨s.data.drop n, s.spare⟩ := by
  unfold suffix
  split_ifs with h <;> simp [h, eq_comm]

end Slice

/-- `fast.Buffer` -/
structure Buffer where
  buf : Slice
  offset : ℕ

def newBuffer (bb : Slice) : Buffer := ⟨bb, 0⟩

namespace Buffer

def writeByte (b : Buffer) (v : UInt8) : Except Panic Buffer :=
  if b.offset < b.buf.data.length then
    .ok ⟨⟨b.buf.data.set b.offset v, b.buf.spare⟩, b.offset + 1⟩
  else .error .outOfRange

def write (b : Buffer) (v : List UInt8) : Except Panic Buffer :=
  if b.buf.data.length < b.offset then .error .outOfRange
  else
    let n := min (b.buf.data.length - b.offset) v.length
    let data := b.buf.data.take b.offset ++ v.take n ++ b.buf.data.drop (b.offset + n)
    if n ≠ v.length then .error .bufferOverflow else .ok ⟨⟨data, b.buf.spare⟩, b.offset + n⟩

def read (b : Buffer) (n : ℤ) : Except Panic (List UInt8 × Buffer) :=
  (b.buf.sub b.offset (b.offset + n)).map fun res => (res, ⟨b.buf, (b.offset + n).toNat⟩)

def position (b : Buffer) : ℕ := b.offset

/-- The buffer `b'` is `b` with `bs` written at the cursor. -/
structure Wrote (b : Buffer) (bs : List UInt8) (b' : Buffer) : Prop where
  length : b'.buf.data.length = b.buf.data.length
  offset : b'.offset = b.offset + bs.length
  data : b'.buf.data.take b'.offset = b.buf.data.take b.offset ++ bs

lemma Wrote.nil (b : Buffer) : b.Wrote [] b := ⟨rfl, by simp, by simp⟩

variable {bs : List UInt8} {b' b : Buffer}

/-- Writes are composed. -/
lemma Wrote.trans {b'' : Buffer} {cs : List UInt8} (h : b.Wrote bs b') (h' : b'.Wrote cs b'') :
    b.Wrote (bs ++ cs) b'' where
  length := h'.length.trans h.length
  offset := by rw [h'.offset, h.offset, List.length_append, Nat.add_assoc]
  data := by rw [h'.data, h.data, List.append_assoc]

lemma writeByte_ok (v : UInt8) (h : b.offset < b.buf.data.length) :
    ∃ b', b.writeByte v = .ok b' ∧ b.Wrote [v] b' := by
  refine ⟨_, if_pos h, by simp, by simp, ?_⟩
  rw [List.take_add_one, List.getElem?_set_self h, List.take_set_of_le (Nat.le_refl _)]
  rfl

/-- What fits into the rest of the buffer is written there. -/
lemma write_ok (v : List UInt8) (h : b.offset + v.length ≤ b.buf.data.length) :
    ∃ b', b.write v = .ok b' ∧ b.Wrote v b' := by
  have hmin : min (b.buf.data.length - b.offset) v.length = v.length := by omega
  have htake : (b.buf.data.take b.offset).length = b.offset := by simp; omega
  refine ⟨⟨⟨b.buf.data.take b.offset ++ v ++ b.buf.data.drop (b.offset + v.length), b.buf.spare⟩,
    b.offset + v.length⟩, ?_, ?_, rfl, ?_⟩
  · rw [write, if_neg (by omega), hmin, if_neg (by simp), List.take_length]
  · simp only [List.length_append, List.length_drop, htake]
    omega
  · rw [List.take_append_of_le_length (by simp [htake]), List.take_of_length_le (by simp [htake])]

/-- What is not read yet, up to the capacity. -/
def rest (b : Buffer) : List UInt8 := b.buf.all.drop b.offset

/-- The buffer `b'` is `b` after reading `bs`. -/
structure Reads (b : Buffer) (bs : List UInt8) (b' : Buffer) : Prop where
  buf : b'.buf = b.buf
  offset : b'.offset = b.offset + bs.length
  rest : b.rest = bs ++ b'.rest

lemma reads_nil_iff : b.Reads [] b' ↔ b' = b := by
  constructor
  · rintro ⟨hbuf, hoffset, -⟩
    obtain ⟨buf, offset⟩ := b
    obtain ⟨buf', offset'⟩ := b'
    simp_all
  · rintro rfl
    exact ⟨rfl, by simp, by simp⟩

/-- Reads are composed. -/
lemma Reads.trans {b'' : Buffer} {cs : List UInt8} (h : b.Reads bs b') (h' : b'.Reads cs b'') :
    b.Reads (bs ++ cs) b'' where
  buf := h'.buf.trans h.buf
  offset := by rw [h'.offset, h.offset, List.length_append, Nat.add_assoc]
  rest := by rw [h.rest, h'.rest, List.append_assoc]

lemma Reads.offset_le (h : b.Reads bs b') (hb : b.offset ≤ b.buf.all.length) :
    b'.offset ≤ b'.buf.all.length := by
  have := congrArg List.length h.rest
  rw [Buffer.rest, Buffer.rest, List.length_append, List.length_drop, List.length_drop, h.buf] at this
  rw [h.buf, h.offset]
  have := h.offset
  omega

lemma Reads.of_rest {t : List UInt8} (h : b.rest = bs ++ t) :
    b.Reads bs ⟨b.buf, b.offset + bs.length⟩ := by
  refine ⟨rfl, rfl, ?_⟩
  have : (⟨b.buf, b.offset + bs.length⟩ : Buffer).rest = t := by
    rw [Buffer.rest, ← List.drop_drop, ← Buffer.rest, h, List.drop_left]
  rw [this, h]

/-- Reads can be split anywhere. -/
lemma reads_append_iff {b'' : Buffer} {cs : List UInt8} :
    b.Reads (bs ++ cs) b'' ↔ ∃ b', b.Reads bs b' ∧ b'.Reads cs b'' := by
  refine ⟨fun h => ?_, fun ⟨b', h, h'⟩ => h.trans h'⟩
  have hrest := h.rest
  rw [List.append_assoc] at hrest
  have hfirst := Reads.of_rest hrest
  refine ⟨_, hfirst, h.buf, ?_, ?_⟩
  · rw [h.offset, List.length_append, Nat.add_assoc]
  · have := hfirst.rest
    rw [hrest] at this
    exact (List.append_cancel_left this).symm

/-- `Read` returns as many bytes as it is asked for, or fails. -/
lemma read_eq_ok_iff (hb : b.offset ≤ b.buf.all.length) {n : ℤ} :
    b.read n = .ok (bs, b') ↔ b.Reads bs b' ∧ (bs.length : ℤ) = n := by
  unfold read Slice.sub
  split_ifs with h
  · obtain ⟨k, rfl⟩ := Int.eq_ofNat_of_zero_le (show 0 ≤ n by omega)
    have hlen : b.offset + k ≤ b.buf.all.length := by omega
    have hnat : ((b.offset : ℤ) + (k : ℤ)).toNat = b.offset + k := by omega
    have hbs : (b.buf.all.take (b.offset + k)).drop b.offset = b.rest.take k := by
      rw [List.drop_take, Buffer.rest, Nat.add_sub_cancel_left]
    have hrest : k ≤ b.rest.length := by
      rw [Buffer.rest, List.length_drop]
      omega
    simp only [Except.map, hnat, hbs, Except.ok.injEq, Prod.mk.injEq, Nat.cast_inj]
    constructor
    · rintro ⟨rfl, rfl⟩
      have hk : (b.rest.take k).length = k := by simp [hrest]
      have hreads := Reads.of_rest (List.take_append_drop k b.rest).symm
      rw [hk] at hreads
      exact ⟨hreads, hk⟩
    · rintro ⟨hr, rfl⟩
      refine ⟨by rw [hr.rest, List.take_left], ?_⟩
      obtain ⟨buf', offset'⟩ := b'
      obtain rfl : buf' = b.buf := hr.buf
      obtain rfl : offset' = b.offset + bs.length := hr.offset
      rfl
  · simp only [Except.map, reduceCtorEq, false_iff, not_and]
    rintro hr rfl
    have h₁ := hr.offset_le hb
    rw [hr.buf, hr.offset] at h₁
    exact h ⟨by omega, by exact_mod_cast h₁⟩

end Buffer

end Lachesis.Fast
