import Lachesis.Core.Run
import Lachesis.Inter.EventSerializer
import Mathlib.Tactic.IntervalCases

/-!
# Reading what was written

What `MarshalBinary` writes is laid out in parts, and `UnmarshalBinary` accepts the byte strings with
such a layout. The parts behind the two bit arrays are then determined by the header, but of the bit
arrays only some values are ever written: reading gives no error for the others.
-/

namespace Lachesis

open Lachesis.Core Fast

/-! ### Writing -/

lemma toNat_shiftRight_eight (v : UInt64) : (v >>> 8).toNat = v.toNat / 256 := by
  rw [UInt64.toNat_shiftRight]
  exact Nat.shiftRight_eq_div_pow _ 8

lemma writeUintCompact_ok {size : ℕ} {buf : Buffer} {v : UInt64}
    (hroom : buf.offset + (compactBytes size v.toNat).length ≤ buf.buf.data.length) :
    ∃ buf', writeUintCompact buf v size = .ok ((compactBytes size v.toNat).length, buf') ∧
      buf.Wrote (compactBytes size v.toNat) buf' := by
  induction size generalizing buf v with
  | zero => exact ⟨buf, rfl, .nil buf⟩
  | succ size ih =>
    have hbyte : v.toUInt8 = UInt8.ofNat v.toNat := rfl
    have hzero : v >>> 8 = 0 ↔ v.toNat / 256 = 0 := by
      rw [← toNat_shiftRight_eight, ← UInt64.toNat_inj]
      rfl
    rw [compactBytes] at hroom ⊢
    rw [List.length_cons] at hroom
    obtain ⟨buf₁, hbuf₁, hw₁⟩ := buf.writeByte_ok v.toUInt8 (by omega)
    rw [writeUintCompact, hbuf₁]
    by_cases h : v.toNat / 256 = 0
    · refine ⟨buf₁, ?_, ?_⟩
      · simp only [bind, Except.bind, if_pos (hzero.mpr h), if_pos h]
        rfl
      · rw [if_pos h, ← hbyte]
        exact hw₁
    · rw [if_neg h, ← toNat_shiftRight_eight] at hroom ⊢
      obtain ⟨buf₂, hbuf₂, hw₂⟩ := @ih buf₁ (v >>> 8) (by
        rw [hw₁.length, hw₁.offset, List.length_singleton]
        omega)
      refine ⟨buf₂, ?_, ?_⟩
      · simp only [bind, Except.bind, if_neg (mt hzero.mp h), hbuf₂]
        rfl
      · rw [← hbyte]
        exact hw₁.trans hw₂

/-- The numbers of a list as they are written. -/
def compacts (size : ℕ) (xs : List UInt64) : List (List UInt8) :=
  xs.map fun x => compactBytes size x.toNat

/-- The sizes that are pushed for byte strings. -/
def sizesOf (bss : List (List UInt8)) : List ℕ := bss.map (·.length - 1)

/-- Numbers are written compactly, their sizes go to the header. -/
lemma writeUints_ok {size : ℕ} (xs : List UInt64) {header : BitArrayWriter} {vs : List ℕ}
    (buf : Buffer) (h : header.Pushed vs) (hbits : header.bits ∣ 8) (hsize : 0 < size)
    (hfit : size ≤ 2 ^ header.bits)
    (hraw : (vs.length + xs.length) * header.bits ≤ 8 * header.raw.length)
    (hroom : buf.offset + (compacts size xs).flatten.length ≤ buf.buf.data.length) :
    ∃ header' buf', writeUints size xs header buf = .ok (header', buf') ∧
      header'.Pushed (vs ++ sizesOf (compacts size xs)) ∧ header'.bits = header.bits ∧
      header'.raw.length = header.raw.length ∧ buf.Wrote (compacts size xs).flatten buf' := by
  induction xs generalizing header vs buf with
  | nil => exact ⟨header, buf, rfl, by simpa [compacts, sizesOf] using h, rfl, rfl, .nil buf⟩
  | cons x xs ih =>
    have hlen : (compactBytes size x.toNat).length ≤ size := length_compactBytes_le _ _
    have hpos := length_compactBytes_pos hsize x.toNat
    have hflat : (compacts size (x :: xs)).flatten.length =
        (compactBytes size x.toNat).length + (compacts size xs).flatten.length := by
      simp [compacts]
    have hbits0 : 0 < header.bits := Nat.pos_of_dvd_of_pos hbits (by omega)
    rw [List.length_cons] at hraw
    obtain ⟨buf₁, hbuf₁, hw₁⟩ := @writeUintCompact_ok size buf x (by omega)
    have hcell : vs.length * header.bits / 8 < header.raw.length := by
      have : vs.length * header.bits < (vs.length + (xs.length + 1)) * header.bits :=
        Nat.mul_lt_mul_of_pos_right (by omega) hbits0
      omega
    obtain ⟨header₁, hheader₁, hp₁, hb₁, hr₁⟩ :=
      h.push hbits (v := (compactBytes size x.toNat).length - 1) (by omega) hcell
    obtain ⟨header₂, buf₂, hrun, hp₂, hb₂, hr₂, hw₂⟩ := @ih _ _ buf₁ hp₁ (hb₁ ▸ hbits)
      (hb₁ ▸ hfit) (by
        rw [hb₁, hr₁, List.length_append, List.length_singleton]
        calc _ = (vs.length + (xs.length + 1)) * header.bits := by ring
          _ ≤ _ := hraw) (by rw [hw₁.length, hw₁.offset]; omega)
    refine ⟨header₂, buf₂, ?_, ?_, hb₂.trans hb₁, hr₂.trans hr₁, ?_⟩
    · have hcast : (((compactBytes size x.toNat).length : ℕ) : ℤ) - 1 =
          (((compactBytes size x.toNat).length - 1 : ℕ) : ℤ) := by omega
      simp only [writeUints, bind, Except.bind, hbuf₁, hcast, hheader₁, hrun]
    · simpa [compacts, sizesOf] using hp₂
    · simpa [compacts] using hw₁.trans hw₂

/-- The numbers that are pushed for flags. -/
def flagsOf (flags : List Bool) : List ℕ := flags.map fun f => if f then 1 else 0

lemma writeBools_ok (flags : List Bool) {header : BitArrayWriter} {vs : List ℕ}
    (h : header.Pushed vs) (hbits : header.bits ∣ 8)
    (hraw : (vs.length + flags.length) * header.bits ≤ 8 * header.raw.length) :
    ∃ header', writeBools header flags = .ok header' ∧ header'.Pushed (vs ++ flagsOf flags) ∧
      header'.bits = header.bits ∧ header'.raw.length = header.raw.length := by
  have hbits0 : 0 < header.bits := Nat.pos_of_dvd_of_pos hbits (by omega)
  exact foldlM_ok
    (fun header f => BitArrayWriter.push header (if f then 1 else 0)) flags header
    (fun done a => a.Pushed (vs ++ flagsOf done) ∧ a.bits = header.bits ∧
      a.raw.length = header.raw.length) ⟨by simpa [flagsOf] using h, rfl, rfl⟩ (by
      rintro done f rest a hl ⟨hp, hb, hr⟩
      have hlen : (vs ++ flagsOf done).length = vs.length + done.length := by simp [flagsOf]
      have hcell : (vs ++ flagsOf done).length * a.bits / 8 < a.raw.length := by
        have : (vs ++ flagsOf done).length * header.bits <
            (vs.length + flags.length) * header.bits :=
          Nat.mul_lt_mul_of_pos_right (by rw [hlen, hl]; simp) hbits0
        rw [hb, hr]
        omega
      have hv : (if f then 1 else 0) < 2 ^ a.bits := by
        have := Nat.one_lt_two_pow (n := a.bits) (by omega)
        split <;> omega
      obtain ⟨a', ha', hp', hb', hr'⟩ := hp.push (hb ▸ hbits) hv hcell
      refine ⟨a', ?_, by simpa [flagsOf] using hp', hb'.trans hb, hr'.trans hr⟩
      rw [← ha']
      split <;> rfl)

def parentBytes (parents : List HashBytes) : List UInt8 := parents.flatMap fun p => p.val.drop 4

lemma length_parentBytes (parents : List HashBytes) :
    (parentBytes parents).length = parents.length * 28 := by
  induction parents with
  | nil => rfl
  | cons p ps ih =>
    rw [parentBytes] at ih ⊢
    rw [List.flatMap_cons, List.length_append, ih, List.length_drop, p.property, List.length_cons]
    ring

lemma writeParents_ok (parents : List HashBytes) (buf : Buffer)
    (hroom : buf.offset + parents.length * 28 ≤ buf.buf.data.length) :
    ∃ buf', parents.foldlM (fun buf p => buf.write (p.val.drop 4)) buf = .ok buf' ∧
      buf.Wrote (parentBytes parents) buf' := by
  refine foldlM_ok (fun (buf : Buffer) (p : HashBytes) => buf.write (p.val.drop 4)) parents buf
    (fun done b => buf.Wrote (parentBytes done) b) (.nil buf) ?_
  intro done p rest b hl hw
  have hp : (p.val.drop 4).length = 28 := by rw [List.length_drop, p.property]
  obtain ⟨b', hb', hw'⟩ := b.write_ok (p.val.drop 4) (by
    rw [hw.length, hw.offset, length_parentBytes, hp]
    rw [hl, List.length_append, List.length_cons] at hroom
    omega)
  exact ⟨b', hb', by simpa [parentBytes] using hw.trans hw'⟩

/-- A hash as it is written: not at all if it has its usual value. -/
def encodedHash (dflt h : HashBytes) : List UInt8 := if h = dflt then [] else h.val

lemma length_encodedHash_le (dflt h : HashBytes) : (encodedHash dflt h).length ≤ 32 := by
  unfold encodedHash
  split
  · simp
  · exact h.property.le

lemma writeHash_ok (dflt h : HashBytes) (buf : Buffer)
    (hroom : buf.offset + 32 ≤ buf.buf.data.length) :
    ∃ buf', writeHash dflt h buf = .ok buf' ∧ buf.Wrote (encodedHash dflt h) buf' := by
  unfold writeHash encodedHash
  split
  · exact ⟨buf, rfl, .nil buf⟩
  · exact buf.write_ok h.val (by rw [h.property]; exact hroom)

/-- `EmptyTxHash`: the hash of no transactions. -/
def Codec.emptyTxHash : HashBytes :=
  ⟨[0x56, 0xe8, 0x1f, 0x17, 0x1b, 0xcc, 0x55, 0xa6, 0xff, 0x83, 0x45, 0xe6, 0x92, 0xc0, 0xf8, 0x6e,
    0x5b, 0x48, 0xe0, 0x1b, 0x99, 0x6c, 0xad, 0xc0, 0x01, 0x62, 0x2f, 0xb5, 0xe3, 0x63, 0xb4, 0x21],
    rfl⟩

variable {emptyTxHash : HashBytes} {header3 header2 : List UInt8} {e : EventHeaderData}

namespace EventHeaderData

/-- What is written behind the bit arrays. -/
def body (emptyTxHash : HashBytes) (e : EventHeaderData) : List UInt8 :=
  (compacts 8 e.fields64).flatten ++ (compacts 4 (e.fields32.map UInt32.toUInt64)).flatten ++
    parentBytes e.parents ++ encodedHash .zero e.prevEpochHash ++
    encodedHash emptyTxHash e.txHash ++ e.extra

/-- The bit arrays that are written for a header. -/
structure Headers (emptyTxHash : HashBytes) (e : EventHeaderData) (header3 header2 : List UInt8) :
    Prop where
  length3 : header3.length = 3
  length2 : header2.length = 3
  field3 : ∀ i, field 4 header3 i = (sizesOf (compacts 8 e.fields64)).getD i 0
  field2 : ∀ i, field 2 header2 i = (sizesOf (compacts 4 (e.fields32.map UInt32.toUInt64)) ++
    flagsOf (e.fieldsBool emptyTxHash)).getD i 0

lemma Headers.size2 (h : e.Headers emptyTxHash header3 header2) {i : ℕ} (hi : i < 7) :
    field 2 header2 i = (sizesOf (compacts 4 (e.fields32.map UInt32.toUInt64))).getD i 0 := by
  rw [h.field2, List.getD_append _ _ _ _ (by simpa [sizesOf, compacts, fields32] using hi)]

lemma Headers.flag2 (h : e.Headers emptyTxHash header3 header2) (i : ℕ) :
    field 2 header2 (7 + i) = (flagsOf (e.fieldsBool emptyTxHash)).getD i 0 := by
  have hlen : (sizesOf (compacts 4 (e.fields32.map UInt32.toUInt64))).length = 7 := by
    simp [sizesOf, compacts, fields32]
  rw [h.field2, List.getD_append_right _ _ _ _ (by omega), hlen, Nat.add_sub_cancel_left]

lemma pushed_nil (bits count n : ℕ) :
    (⟨⟨bits, count, 0, n⟩, List.replicate n 0⟩ : BitArrayWriter).Pushed [] :=
  ⟨rfl, fun i => by simp [field_replicate_zero]⟩

lemma length_flatten_compacts_le (size : ℕ) (xs : List UInt64) :
    (compacts size xs).flatten.length ≤ xs.length * size := by
  induction xs with
  | nil => simp [compacts]
  | cons x xs ih =>
    have := length_compactBytes_le size x.toNat
    simp only [compacts, List.map_cons, List.flatten_cons, List.length_append, List.length_cons,
      Nat.add_mul] at ih ⊢
    omega

/-- Every header is written, without an overflow of the buffer. -/
theorem marshalBinary_ok (emptyTxHash : HashBytes) (e : EventHeaderData) :
    ∃ header3 header2, e.Headers emptyTxHash header3 header2 ∧
      e.marshalBinary emptyTxHash = .ok (header3 ++ header2 ++ e.body emptyTxHash) := by
  have h64 : (compacts 8 e.fields64).flatten.length ≤ 40 := length_flatten_compacts_le 8 _
  have h32 : (compacts 4 (e.fields32.map UInt32.toUInt64)).flatten.length ≤ 28 :=
    length_flatten_compacts_le 4 _
  have hprev := length_encodedHash_le .zero e.prevEpochHash
  have htx := length_encodedHash_le emptyTxHash e.txHash
  set room := 40 + 28 + e.parents.length * 28 + 32 + 32 + e.extra.length with hroom
  set buf₀ := newBuffer ⟨List.replicate room 0, []⟩ with hbuf₀
  have hlen₀ : buf₀.buf.data.length = room := by simp [buf₀, newBuffer]
  have hoff₀ : buf₀.offset = 0 := rfl
  obtain ⟨header3, buf₁, hrun₁, hp₁, hb₁, hr₁, hw₁⟩ := writeUints_ok e.fields64 buf₀
    (pushed_nil 4 5 3) (by decide) (by decide : 0 < 8) (by decide)
    (by simp [fields64]) (by omega)
  obtain ⟨header2, buf₂, hrun₂, hp₂, hb₂, hr₂, hw₂⟩ := writeUints_ok
    (e.fields32.map UInt32.toUInt64) buf₁ (pushed_nil 2 10 3) (by decide) (by decide : 0 < 4)
    (by decide)
    (by simp [fields32]) (by rw [hw₁.length, hw₁.offset]; omega)
  have hw₂ := hw₁.trans hw₂
  obtain ⟨header2', hrun₃, hp₃, hb₃, hr₃⟩ := writeBools_ok (e.fieldsBool emptyTxHash) hp₂
    (by rw [hb₂]; decide) (by rw [hb₂, hr₂]; simp [sizesOf, compacts, fields32, fieldsBool])
  obtain ⟨buf₄, hrun₄, hw₄⟩ := writeParents_ok e.parents buf₂
    (by rw [hw₂.length, hw₂.offset, List.length_append]; omega)
  have hw₄ := hw₂.trans hw₄
  have hplen := length_parentBytes e.parents
  obtain ⟨buf₅, hrun₅, hw₅⟩ := writeHash_ok .zero e.prevEpochHash buf₄
    (by rw [hw₄.length, hw₄.offset]; simp only [List.length_append]; omega)
  have hw₅ := hw₄.trans hw₅
  obtain ⟨buf₆, hrun₆, hw₆⟩ := writeHash_ok emptyTxHash e.txHash buf₅
    (by rw [hw₅.length, hw₅.offset]; simp only [List.length_append]; omega)
  have hw₆ := hw₅.trans hw₆
  obtain ⟨buf₇, hrun₇, hw₇⟩ := buf₆.write_ok e.extra
    (by rw [hw₆.length, hw₆.offset]; simp only [List.length_append]; omega)
  have hw₇ := hw₆.trans hw₇
  refine ⟨header3.raw, header2'.raw, ⟨hr₁, hr₃.trans hr₂, ?_, ?_⟩, ?_⟩
  · intro i
    have := hp₁.field i
    rw [hb₁] at this
    simpa using this
  · intro i
    have := hp₃.field i
    rw [hb₃, hb₂] at this
    simpa using this
  · have hb3 : newBitArray 4 e.fields64.length = .ok ⟨4, 5, 0, 3⟩ := by
      simp [newBitArray, calcSize, fields64]
    have hb2 : newBitArray 2 (e.fields32.length + (e.fieldsBool emptyTxHash).length) =
        .ok ⟨2, 10, 0, 3⟩ := by
      simp [newBitArray, calcSize, fields32, fieldsBool]
    have hmax : 3 + 3 + e.fields64.length * 8 + e.fields32.length * 4 +
        e.parents.length * (32 - 4) + 32 + 32 + e.extra.length = 6 + room := by
      simp only [fields64, fields32, List.length_cons, List.length_nil, hroom]
      omega
    have hraw3 : (List.replicate (6 + room) (0 : UInt8)).take 3 = List.replicate 3 0 := by
      rw [List.take_replicate, Nat.min_eq_left (by omega)]
    have hraw2 : ((List.replicate (6 + room) (0 : UInt8)).drop 3).take 3 = List.replicate 3 0 := by
      rw [List.drop_replicate, List.take_replicate, Nat.min_eq_left (by omega)]
    have hraw : newBuffer ⟨(List.replicate (6 + room) 0).drop (3 + 3), []⟩ = buf₀ := by
      rw [List.drop_replicate, Nat.add_sub_cancel_left]
    simp only [marshalBinary, hb3, hb2, bind, Except.bind, hmax, hraw3, hraw2, hraw,
      BitArray.writer]
    simp only [List.length_replicate, ne_eq, not_true_eq_false, if_false, hrun₁, hrun₂, hrun₃,
      hrun₄, hrun₅, hrun₆, hrun₇]
    have hdata : buf₇.buf.data.take buf₇.position = e.body emptyTxHash := by
      simpa [hoff₀, body, Buffer.position] using hw₇.data
    have hheaders : (header3.raw ++ header2'.raw).length = 3 + 3 := by
      rw [List.length_append, hr₁, hr₃, hr₂]
      rfl
    rw [← hheaders, List.take_length_add_append, hdata]
    rfl

end EventHeaderData

/-! ### Reading -/

@[simp] lemma recovered_eq_ok_iff {α : Type} {m : Except Panic α} {a : α} :
    recovered m = .ok a ↔ m = .ok a := by
  cases m <;> simp [recovered, Except.mapError]

lemma sumBytes_eq (bs : List UInt8) :
    sumBytes bs = (UInt64.ofNat (leNat bs), bs.getLast?.getD 0) := by
  suffices h : ∀ (k : ℕ) (v : UInt64) (last : UInt8), (bs.zipIdx k).foldl (fun s p =>
      (s.1 + UInt64.ofNat (p.1.toNat <<< (8 * p.2)), p.1)) (v, last) =
      (v + UInt64.ofNat (leNat bs * 256 ^ k), bs.getLast?.getD last) by
    simpa [sumBytes] using h 0 0 0
  induction bs with
  | nil => simp [leNat]
  | cons b bs ih =>
    intro k v last
    have hshift : b.toNat <<< (8 * k) = b.toNat * 256 ^ k := by
      rw [Nat.shiftLeft_eq, pow_mul]
      norm_num
    rw [List.zipIdx_cons, List.foldl_cons, ih, hshift, List.getLast?_cons, Option.getD_some,
      leNat, UInt64.add_assoc, ← UInt64.ofNat_add, pow_succ]
    congr 3
    ring

lemma readUintCompact_eq_ok_iff {buf : Buffer} (hb : buf.offset ≤ buf.buf.all.length) {n : ℕ}
    {x : UInt64} {buf' : Buffer} : readUintCompact buf (n + 1) = .ok (x, buf') ↔
      ∃ bs, buf.Reads bs buf' ∧ bs.length = n + 1 ∧ IsCompact bs ∧ x = UInt64.ofNat (leNat bs) := by
  have hlast : ∀ bs : List UInt8, bs.length = n + 1 →
      (¬ (1 < n + 1 ∧ bs.getLast?.getD 0 = 0) ↔ IsCompact bs) := by
    intro bs hlen
    have hne : bs ≠ [] := by
      rintro rfl
      simp at hlen
    simp [Core.IsCompact, hne, hlen, List.getLast?_eq_some_getLast hne]
  simp only [readUintCompact, bind, bind_eq_ok_iff, recovered_eq_ok_iff, Prod.exists,
    Buffer.read_eq_ok_iff hb, sumBytes_eq]
  constructor
  · rintro ⟨bs, b', ⟨hr, hlen⟩, h⟩
    have hlen : bs.length = n + 1 := by exact_mod_cast hlen
    split_ifs at h with hc
    cases h
    exact ⟨bs, hr, hlen, (hlast bs hlen).mp hc, rfl⟩
  · rintro ⟨bs, hr, hlen, hc, rfl⟩
    exact ⟨bs, buf', ⟨hr, by exact_mod_cast hlen⟩, if_neg ((hlast bs hlen).mpr hc)⟩

/-- The bytes of the numbers that the fields of a bit array announce from `offset` on. -/
structure Announced (bits : ℕ) (header : List UInt8) (offset : ℕ) (bss : List (List UInt8)) :
    Prop where
  size : ∀ i < bss.length, (bss.getD i []).length = field bits header (offset + i) + 1
  compact : ∀ bs ∈ bss, IsCompact bs

variable {bss : List (List UInt8)}

lemma announced_cons_iff {bits offset : ℕ} {header bs : List UInt8} :
    Announced bits header offset (bs :: bss) ↔ bs.length = field bits header offset + 1 ∧
      IsCompact bs ∧ Announced bits header (offset + 1) bss := by
  constructor
  · rintro ⟨hsize, hcompact⟩
    refine ⟨by simpa using hsize 0 (by simp), hcompact bs (by simp), fun i hi => ?_,
      fun b hb => hcompact b (by simp [hb])⟩
    have := hsize (i + 1) (by simpa using hi)
    rw [Nat.add_assoc, Nat.add_comm 1 i]
    simpa using this
  · rintro ⟨hlen, hc, hsize, hcompact⟩
    refine ⟨fun i hi => ?_, fun b hb => ?_⟩
    · cases i with
      | zero => simpa using hlen
      | succ i =>
        have := hsize i (by simpa using hi)
        rw [Nat.add_assoc, Nat.add_comm 1 i] at this
        simpa using this
    · rcases List.mem_cons.mp hb with rfl | hb
      · exact hc
      · exact hcompact b hb

/-- The numbers of byte strings. -/
def numbersOf (bss : List (List UInt8)) : List UInt64 := bss.map fun bs => UInt64.ofNat (leNat bs)

/-- The reader with so many numbers popped. -/
def Fast.BitArrayReader.skip (a : BitArrayReader) (n : ℕ) : BitArrayReader :=
  ⟨{ a.toBitArray with offset := a.offset + n }, a.raw⟩

section

variable {count : ℕ} {header : BitArrayReader} (hbits : header.bits ∣ 8)
  (hraw : (header.offset + count) * header.bits ≤ 8 * header.raw.length)
include hbits hraw

/-- Only compact numbers of the announced sizes are read. -/
lemma readUints_eq_ok_iff {buf : Buffer} (hb : buf.offset ≤ buf.buf.all.length) {xs : List UInt64}
    {header' : BitArrayReader}
    {buf' : Buffer} : readUints count header buf = .ok (xs, header', buf') ↔
      header' = header.skip count ∧ ∃ bss, buf.Reads bss.flatten buf' ∧ bss.length = count ∧
        Announced header.bits header.raw header.offset bss ∧ xs = numbersOf bss := by
  have hbits0 : 0 < header.bits := Nat.pos_of_dvd_of_pos hbits (by omega)
  induction count generalizing header buf xs with
  | zero =>
    have hskip : header.skip 0 = header := rfl
    rw [readUints, hskip, Except.ok.injEq, Prod.mk.injEq, Prod.mk.injEq]
    constructor
    · rintro ⟨rfl, rfl, rfl⟩
      exact ⟨rfl, [], Buffer.reads_nil_iff.mpr rfl, rfl, ⟨by simp, by simp⟩, rfl⟩
    · rintro ⟨rfl, bss, hr, hlen, -, rfl⟩
      obtain rfl := List.length_eq_zero_iff.mp hlen
      exact ⟨rfl, rfl, (Buffer.reads_nil_iff.mp hr).symm⟩
  | succ count ih =>
    have hcell : header.byteOffset < header.raw.length := by
      have : header.offset * header.bits < (header.offset + (count + 1)) * header.bits :=
        Nat.mul_lt_mul_of_pos_right (by omega) hbits0
      rw [BitArray.byteOffset]
      omega
    set header₁ : BitArrayReader := ⟨header.next, header.raw⟩ with hheader₁
    have hraw₁ : (header₁.offset + count) * header₁.bits ≤ 8 * header₁.raw.length := by
      have : header.offset + 1 + count = header.offset + (count + 1) := by omega
      change (header.offset + 1 + count) * header.bits ≤ _
      rw [this]
      exact hraw
    have hskip : header₁.skip count = header.skip (count + 1) := by
      simp only [BitArrayReader.skip, hheader₁, BitArray.next]
      congr 2
      omega
    simp only [readUints, bind, bind_eq_ok_iff, recovered_eq_ok_iff, Prod.exists,
      BitArrayReader.pop_eq_ok_iff hbits]
    constructor
    · rintro ⟨n, _, ⟨-, rfl, rfl⟩, x, buf₁, hx, xs', header₂, buf₂, hrun, h⟩
      obtain ⟨bs, hr, hlen, hc, rfl⟩ := (readUintCompact_eq_ok_iff hb).mp hx
      cases h
      obtain ⟨rfl, bss, hr', rfl, hann, rfl⟩ :=
        (@ih header₁ hbits hraw₁ _ (hr.offset_le hb) _ hbits0).mp hrun
      exact ⟨hskip, bs :: bss, by simpa using hr.trans hr', rfl,
        announced_cons_iff.mpr ⟨hlen, hc, hann⟩, rfl⟩
    · rintro ⟨rfl, bss, hr, hlen, hann, rfl⟩
      obtain ⟨bs, bss, rfl⟩ := List.exists_cons_of_length_eq_add_one hlen
      obtain ⟨hsize, hc, hann⟩ := announced_cons_iff.mp hann
      rw [List.flatten_cons, Buffer.reads_append_iff] at hr
      obtain ⟨buf₁, hr₁, hr₂⟩ := hr
      refine ⟨_, _, ⟨hcell, rfl, rfl⟩, _, buf₁,
        (readUintCompact_eq_ok_iff hb).mpr ⟨bs, hr₁, hsize, hc, rfl⟩, _, _, buf',
        (@ih header₁ hbits hraw₁ _ (hr₁.offset_le hb) _ hbits0).mpr
          ⟨hskip.symm, bss, hr₂, by simpa using hlen, hann, rfl⟩, rfl⟩

lemma readBools_eq_ok_iff {flags : List Bool} :
    readBools count header = .ok flags ↔ flags = (List.range count).map fun i =>
      decide (field header.bits header.raw (header.offset + i) ≠ 0) := by
  have hbits0 : 0 < header.bits := Nat.pos_of_dvd_of_pos hbits (by omega)
  induction count generalizing header flags with
  | zero => simp [readBools, eq_comm]
  | succ count ih =>
    have hcell : header.byteOffset < header.raw.length := by
      have : header.offset * header.bits < (header.offset + (count + 1)) * header.bits :=
        Nat.mul_lt_mul_of_pos_right (by omega) hbits0
      rw [BitArray.byteOffset]
      omega
    have hpop := (BitArrayReader.pop_eq_ok_iff hbits).mpr ⟨hcell, rfl, rfl⟩
    have hraw₁ : (header.offset + 1 + count) * header.bits ≤ 8 * header.raw.length := by
      rw [Nat.add_assoc, Nat.add_comm 1 count]
      exact hraw
    have hrest := (@ih ⟨header.next, header.raw⟩ hbits hraw₁ _ hbits0).mpr rfl
    rw [readBools, hpop]
    simp only [recovered, Except.mapError, bind, Except.bind, hrest, List.range_succ_eq_map,
      List.map_cons, List.map_map]
    rw [eq_comm]
    simp only [pure, Except.pure, Except.ok.injEq]
    have hidx : ∀ i, header.offset + 1 + i = header.offset + (i + 1) := fun i => by omega
    simp [Function.comp_def, hidx, BitArray.next]

end

lemma length_epochBytes (epoch : UInt32) : (epochBytes epoch).length = 4 := by simp [epochBytes]

/-- The epoch of the parents is not written. -/
lemma readParents_eq_ok_iff {epoch : UInt32} {count : ℕ} {buf : Buffer}
    (hb : buf.offset ≤ buf.buf.all.length) {parents : List HashBytes} {buf' : Buffer} :
    readParents epoch count buf = .ok (parents, buf') ↔ buf.Reads (parentBytes parents) buf' ∧
      parents.length = count ∧ ∀ p ∈ parents, p.val.take 4 = epochBytes epoch := by
  induction count generalizing buf parents with
  | zero =>
    rw [readParents, Except.ok.injEq, Prod.mk.injEq]
    constructor
    · rintro ⟨rfl, rfl⟩
      exact ⟨Buffer.reads_nil_iff.mpr rfl, rfl, by simp⟩
    · rintro ⟨hr, hlen, -⟩
      obtain rfl := List.length_eq_zero_iff.mp hlen
      exact ⟨rfl, (Buffer.reads_nil_iff.mp hr).symm⟩
  | succ count ih =>
    simp only [readParents, bind, bind_eq_ok_iff, recovered_eq_ok_iff, Prod.exists,
      Buffer.read_eq_ok_iff hb]
    constructor
    · rintro ⟨bs, buf₁, ⟨hr, hlen⟩, ps, buf₂, hrun, h⟩
      cases h
      have hlen : bs.length = 28 := by omega
      obtain ⟨hr', rfl, hps⟩ := (ih (hr.offset_le hb)).mp hrun
      rw [HashBytes.copyAt_copyAt (length_epochBytes epoch) hlen]
      refine ⟨?_, rfl, ?_⟩
      · have hdrop : (epochBytes epoch ++ bs).drop 4 = bs := List.drop_left' (length_epochBytes epoch)
        rw [parentBytes, List.flatMap_cons, hdrop]
        exact hr.trans hr'
      · rintro p hp
        rcases List.mem_cons.mp hp with rfl | hp
        · exact List.take_left' (length_epochBytes epoch)
        · exact hps p hp
    · rintro ⟨hr, hlen, hps⟩
      obtain ⟨p, ps, rfl⟩ := List.exists_cons_of_length_eq_add_one hlen
      have hdrop : (p.val.drop 4).length = 28 := by rw [List.length_drop, p.property]
      rw [parentBytes, List.flatMap_cons, Buffer.reads_append_iff] at hr
      obtain ⟨buf₁, hr₁, hr₂⟩ := hr
      refine ⟨_, buf₁, ⟨hr₁, by rw [hdrop]; rfl⟩, ps, buf', (ih (hr₁.offset_le hb)).mpr
        ⟨hr₂, by simpa using hlen, fun q hq => hps q (by simp [hq])⟩, ?_⟩
      rw [HashBytes.copyAt_copyAt (length_epochBytes epoch) hdrop]
      congr 3
      have happend : epochBytes epoch ++ p.val.drop 4 = p.val := by
        rw [← hps p (by simp), List.take_append_drop]
      exact Subtype.ext happend

lemma readHash_eq_ok_iff {dflt h : HashBytes} {isEmpty : Bool} {buf buf' : Buffer}
    (hb : buf.offset ≤ buf.buf.all.length) : readHash dflt isEmpty buf = .ok (h, buf') ↔
      buf.Reads (encodedHash dflt h) buf' ∧ isEmpty = decide (h = dflt) := by
  unfold readHash
  cases isEmpty with
  | true =>
    rw [if_pos rfl, Except.ok.injEq, Prod.mk.injEq]
    constructor
    · rintro ⟨rfl, rfl⟩
      exact ⟨by rw [encodedHash, if_pos rfl]; exact Buffer.reads_nil_iff.mpr rfl, by simp⟩
    · rintro ⟨hr, hh⟩
      obtain rfl : h = dflt := by simpa using hh
      rw [encodedHash, if_pos rfl] at hr
      exact ⟨rfl, (Buffer.reads_nil_iff.mp hr).symm⟩
  | false =>
    simp only [Bool.false_eq_true, if_false, bind, bind_eq_ok_iff, recovered_eq_ok_iff,
      Prod.exists, Buffer.read_eq_ok_iff hb]
    constructor
    · rintro ⟨bs, buf₁, ⟨hr, hlen⟩, hrun⟩
      have hlen : bs.length = 32 := by exact_mod_cast hlen
      rw [HashBytes.setBytes_eq hlen] at hrun
      split_ifs at hrun with hne
      cases hrun
      exact ⟨by rw [encodedHash, if_neg hne]; exact hr, by simp [hne]⟩
    · rintro ⟨hr, hh⟩
      have hne : h ≠ dflt := by simpa using hh
      rw [encodedHash, if_neg hne] at hr
      refine ⟨h.val, buf', ⟨hr, by rw [h.property]; rfl⟩, ?_⟩
      rw [HashBytes.setBytes_eq h.property, if_neg hne]

/-- An event is read from what would be written for it. -/
lemma unmarshalRest_eq_ok_iff {size : ℕ} {buf : Buffer} (hb : buf.offset ≤ buf.buf.all.length)
    {fields64 : List UInt64} {fields32 : List UInt32}
    {fieldsBool : List Bool} :
    unmarshalRest emptyTxHash size buf fields64 fields32 fieldsBool = .ok e ↔
      fields64 = e.fields64 ∧ fields32 = e.fields32 ∧ fieldsBool = e.fieldsBool emptyTxHash ∧
      e.parents.length < 2 ^ 32 ∧ (∀ p ∈ e.parents, p.val.take 4 = epochBytes e.epoch) ∧
      ∃ buf', buf'.offset = size ∧ buf.Reads (parentBytes e.parents ++
        encodedHash .zero e.prevEpochHash ++ encodedHash emptyTxHash e.txHash ++ e.extra) buf' := by
  constructor
  · intro h
    unfold unmarshalRest at h
    split at h
    case h_2 => cases h
    rename_i gas0 gas1 used claimed median version epoch seq frame creator lamport parentCount
      isRoot isPrevEmpty isTxEmpty
    simp only [bind, bind_eq_ok_iff, recovered_eq_ok_iff, Prod.exists] at h
    obtain ⟨parents, buf₁, hparents, prev, buf₂, hprev, tx, buf₃, htx, extra, buf₄, hextra, h⟩ := h
    cases h
    obtain ⟨hr₁, hlen, hps⟩ := (readParents_eq_ok_iff hb).mp hparents
    have hb₁ := hr₁.offset_le hb
    obtain ⟨hr₂, rfl⟩ := (readHash_eq_ok_iff hb₁).mp hprev
    have hb₂ := hr₂.offset_le hb₁
    obtain ⟨hr₃, rfl⟩ := (readHash_eq_ok_iff hb₂).mp htx
    obtain ⟨hr₄, hsize⟩ := (Buffer.read_eq_ok_iff (hr₃.offset_le hb₂)).mp hextra
    have hcount : parentCount = UInt32.ofNat parents.length := by rw [hlen, UInt32.ofNat_toNat]
    refine ⟨rfl, by rw [hcount]; rfl, rfl, by rw [hlen]; exact parentCount.toNat_lt, hps, buf₄, ?_,
      ((hr₁.trans hr₂).trans hr₃).trans hr₄⟩
    have := hr₄.offset
    simp only [Buffer.position] at hsize
    omega
  · rintro ⟨rfl, rfl, rfl, hlt, hps, buf', hsize, hr⟩
    simp only [Buffer.reads_append_iff] at hr
    obtain ⟨buf₃, ⟨buf₂, ⟨buf₁, hr₁, hr₂⟩, hr₃⟩, hr₄⟩ := hr
    have hb₁ := hr₁.offset_le hb
    have hb₂ := hr₂.offset_le hb₁
    have hcount : (UInt32.ofNat e.parents.length).toNat = e.parents.length := by
      rw [UInt32.toNat_ofNat', Nat.mod_eq_of_lt hlt]
    have hextra : (e.extra.length : ℤ) = size - buf₃.position := by
      have := hr₄.offset
      rw [Buffer.position]
      omega
    simp only [unmarshalRest, EventHeaderData.fields64, EventHeaderData.fields32,
      EventHeaderData.fieldsBool, bind, Except.bind, hcount,
      (readParents_eq_ok_iff hb).mpr ⟨hr₁, rfl, hps⟩, (readHash_eq_ok_iff hb₁).mpr ⟨hr₂, rfl⟩,
      (readHash_eq_ok_iff hb₂).mpr ⟨hr₃, rfl⟩, recovered,
      (Buffer.read_eq_ok_iff (hr₃.offset_le hb₂)).mpr ⟨hr₄, hextra⟩, Except.mapError]
    rfl

/-! ### Layouts -/

/-- The parts of a byte string that is read as a header. -/
structure Layout (emptyTxHash : HashBytes) (e : EventHeaderData) (raw header3 header2 : List UInt8)
    (b64 b32 : List (List UInt8)) : Prop where
  raw : raw = header3 ++ header2 ++ (b64.flatten ++ b32.flatten ++ (parentBytes e.parents ++
    encodedHash .zero e.prevEpochHash ++ encodedHash emptyTxHash e.txHash ++ e.extra))
  length3 : header3.length = 3
  length2 : header2.length = 3
  length64 : b64.length = 5
  length32 : b32.length = 7
  announced64 : Announced 4 header3 0 b64
  announced32 : Announced 2 header2 0 b32
  fields64 : e.fields64 = numbersOf b64
  fields32 : e.fields32 = (numbersOf b32).map UInt64.toUInt32
  fieldsBool : e.fieldsBool emptyTxHash = [7, 8, 9].map fun i => decide (field 2 header2 i ≠ 0)
  parents_lt : e.parents.length < 2 ^ 32
  parents_epoch : ∀ p ∈ e.parents, p.val.take 4 = epochBytes e.epoch

/-- The parts of a byte string that are read before the parents: the bit arrays, and from what is
behind them the numbers that they announce. -/
structure Opened (raw rest : Slice) (buf : Buffer) (header3 header2 : List UInt8)
    (b64 b32 : List (List UInt8)) : Prop where
  data : raw.data = header3 ++ header2 ++ rest.data
  spare : rest.spare = raw.spare
  length3 : header3.length = 3
  length2 : header2.length = 3
  length64 : b64.length = 5
  length32 : b32.length = 7
  announced64 : Announced 4 header3 0 b64
  announced32 : Announced 2 header2 0 b32
  reads : (newBuffer rest).Reads (b64.flatten ++ b32.flatten) buf

lemma beforeParents_eq_ok_iff {raw rest : Slice} {buf : Buffer} {f64 : List UInt64}
    {f32 : List UInt32} {fb : List Bool} : beforeParents raw = .ok (rest, buf, f64, f32, fb) ↔
      ∃ header3 header2 b64 b32, Opened raw rest buf header3 header2 b64 b32 ∧
        f64 = numbersOf b64 ∧ f32 = (numbersOf b32).map UInt64.toUInt32 ∧
        fb = [7, 8, 9].map fun i => decide (field 2 header2 i ≠ 0) := by
  have hb3 : newBitArray 4 5 = .ok ⟨4, 5, 0, 3⟩ := by simp [newBitArray, calcSize]
  have hb2 : newBitArray 2 (7 + 3) = .ok ⟨2, 10, 0, 3⟩ := by simp [newBitArray, calcSize]
  simp only [beforeParents, hb3, hb2, bind, bind_eq_ok_iff, recovered_eq_ok_iff, Except.ok.injEq,
    exists_eq_left', Prod.exists, pure, Except.pure, Prod.mk.injEq]
  have h4dvd : 4 ∣ 8 := by decide
  have h2dvd : 2 ∣ 8 := by decide
  -- the slices are the two bit arrays and what is behind them
  have hslices : ∀ {header3 header2 rest : List UInt8}, header3.length = 3 → header2.length = 3 →
      raw.data = header3 ++ header2 ++ rest → raw.sub 0 (3 : ℕ) = .ok header3 ∧
      raw.sub 3 (3 + 3 : ℕ) = .ok header2 ∧ raw.suffix (3 + 3) = .ok ⟨rest, raw.spare⟩ := by
    intro header3 header2 rest h3 h2 hdata
    refine ⟨?_, ?_, ?_⟩
    · have := Slice.sub_of_append (s := raw) (a := []) (b := header3) (c := header2 ++ rest)
        (by simp [hdata])
      simpa [h3] using this
    · have := Slice.sub_of_append hdata
      rwa [h3, h2] at this
    · have := Slice.suffix_of_append hdata
      rwa [List.length_append, h3, h2] at this
  constructor
  · rintro ⟨header3r, ⟨header3', hsub3, hread3⟩, header2r, ⟨header2', hsub2, hread2⟩, rest, hrest,
      f64, header3r', buf₁, hrun64, f32, header2r', buf₂, hrun32, fb, hrunb, rfl, rfl, rfl, rfl, rfl⟩
    obtain ⟨hlen, rfl⟩ := Slice.suffix_eq_ok_iff.mp hrest
    obtain ⟨header3, header2, h3, h2, hdata⟩ : ∃ header3 header2 : List UInt8, header3.length = 3 ∧
        header2.length = 3 ∧ raw.data = header3 ++ header2 ++ raw.data.drop (3 + 3) := by
      refine ⟨raw.data.take 3, (raw.data.drop 3).take 3, by simp; omega, by simp; omega, ?_⟩
      rw [← List.drop_drop, List.append_assoc, List.take_append_drop, List.take_append_drop]
    obtain ⟨hs3, hs2, -⟩ := hslices h3 h2 hdata
    obtain rfl : header3 = header3' := Except.ok.inj (hs3.symm.trans hsub3)
    obtain rfl : header2 = header2' := Except.ok.inj (hs2.symm.trans hsub2)
    simp only [BitArray.reader, h3, h2, ne_eq, not_true_eq_false, if_false, Except.ok.injEq]
      at hread3 hread2
    subst hread3 hread2
    obtain ⟨-, b64, hr₁, hlen64, hann64, rfl⟩ := (readUints_eq_ok_iff h4dvd
      (by simp [h3]) (Nat.zero_le _)).mp hrun64
    obtain ⟨rfl, b32, hr₂, hlen32, hann32, rfl⟩ := (readUints_eq_ok_iff h2dvd
      (by simp [h2]) (hr₁.offset_le (Nat.zero_le _))).mp hrun32
    obtain rfl := (readBools_eq_ok_iff h2dvd (by simp [BitArrayReader.skip, h2])).mp hrunb
    exact ⟨header3, header2, b64, b32, ⟨hdata, rfl, h3, h2, hlen64, hlen32, hann64, hann32,
      hr₁.trans hr₂⟩, rfl, rfl, rfl⟩
  · rintro ⟨header3, header2, b64, b32, ho, rfl, rfl, rfl⟩
    obtain ⟨hs3, hs2, hsuf⟩ := hslices ho.length3 ho.length2 ho.data
    obtain ⟨rest, spare⟩ := rest
    obtain rfl : spare = raw.spare := ho.spare
    obtain ⟨buf₁, hr₁, hr₂⟩ := Buffer.reads_append_iff.mp ho.reads
    have hrun64 := (@readUints_eq_ok_iff 5 ⟨⟨4, 5, 0, 3⟩, header3⟩ h4dvd (by simp [ho.length3]) _
      (Nat.zero_le _) _ _ _).mpr ⟨rfl, b64, hr₁, ho.length64, ho.announced64, rfl⟩
    have hrun32 := (@readUints_eq_ok_iff 7 ⟨⟨2, 10, 0, 3⟩, header2⟩ h2dvd (by simp [ho.length2]) _
      (hr₁.offset_le (Nat.zero_le _)) _ _ _).mpr
        ⟨rfl, b32, hr₂, ho.length32, ho.announced32, rfl⟩
    have hbools : readBools 3 (BitArrayReader.skip ⟨⟨2, 10, 0, 3⟩, header2⟩ 7) =
        .ok ([7, 8, 9].map fun i => decide (field 2 header2 i ≠ 0)) :=
      (readBools_eq_ok_iff h2dvd (by simp [BitArrayReader.skip, ho.length2])).mpr rfl
    exact ⟨_, ⟨header3, hs3, by simp [BitArray.reader, ho.length3]⟩, _,
      ⟨header2, hs2, by simp [BitArray.reader, ho.length2]⟩, _, hsuf, _, _, buf₁, hrun64, _, _, buf,
      hrun32, _, hbools, rfl, rfl, rfl, rfl, rfl⟩

/-- The byte strings that are accepted are those with a layout. -/
theorem unmarshalBinary_eq_ok_iff {raw : Slice} :
    unmarshalBinary emptyTxHash raw = .ok e ↔
      ∃ header3 header2 b64 b32, Layout emptyTxHash e raw.data header3 header2 b64 b32 := by
  simp only [unmarshalBinary, bind, bind_eq_ok_iff]
  constructor
  · rintro ⟨⟨rest, buf, f64, f32, fb⟩, hbefore, hend⟩
    obtain ⟨header3, header2, b64, b32, ho, rfl, rfl, rfl⟩ := beforeParents_eq_ok_iff.mp hbefore
    obtain ⟨h64, h32, hbool, hlt, hps, buf', hsize, hr⟩ :=
      (unmarshalRest_eq_ok_iff (ho.reads.offset_le (Nat.zero_le _))).mp hend
    refine ⟨header3, header2, b64, b32, ?_, ho.length3, ho.length2, ho.length64, ho.length32,
      ho.announced64, ho.announced32, h64.symm, h32.symm, hbool.symm, hlt, hps⟩
    -- all of the bytes are read, so nothing behind them is
    have hrest := (ho.reads.trans hr).rest
    have hoff := (ho.reads.trans hr).offset
    rw [hsize] at hoff
    simp only [Buffer.rest, newBuffer, Slice.all, List.drop_zero, Nat.zero_add] at hrest hoff
    rw [ho.data, (List.append_inj hrest hoff).1]
  · rintro ⟨header3, header2, b64, b32, hl⟩
    set rest := b64.flatten ++ b32.flatten ++ (parentBytes e.parents ++
      encodedHash .zero e.prevEpochHash ++ encodedHash emptyTxHash e.txHash ++ e.extra)
    obtain ⟨buf', hoff, hr⟩ : ∃ buf' : Buffer, buf'.offset = rest.length ∧
        (newBuffer ⟨rest, raw.spare⟩).Reads rest buf' :=
      ⟨_, Nat.zero_add _, Buffer.Reads.of_rest (t := raw.spare) rfl⟩
    obtain ⟨buf, hr₁, hr₂⟩ := Buffer.reads_append_iff.mp hr
    have ho : Opened raw ⟨rest, raw.spare⟩ buf header3 header2 b64 b32 :=
      ⟨hl.raw, rfl, hl.length3, hl.length2, hl.length64, hl.length32, hl.announced64,
        hl.announced32, hr₁⟩
    refine ⟨_, beforeParents_eq_ok_iff.mpr ⟨header3, header2, b64, b32, ho, rfl, rfl, rfl⟩,
      (unmarshalRest_eq_ok_iff (hr₁.offset_le (Nat.zero_le _))).mpr ?_⟩
    exact ⟨hl.fields64.symm, hl.fields32.symm, hl.fieldsBool.symm, hl.parents_lt, hl.parents_epoch,
      buf', hoff, hr₂⟩

/-! ### Round trips -/

lemma announced_compacts {bits size offset : ℕ} {header : List UInt8} {xs : List UInt64}
    (hsize : 0 < size) (hxs : ∀ x ∈ xs, x.toNat < 256 ^ size)
    (h : ∀ i < xs.length, field bits header (offset + i) = (sizesOf (compacts size xs)).getD i 0) :
    Announced bits header offset (compacts size xs) := by
  refine ⟨fun i hi => ?_, fun bs hbs => ?_⟩
  · have hi' : i < xs.length := by simpa [compacts] using hi
    have hpos := length_compactBytes_pos hsize (xs[i]).toNat
    rw [h i hi']
    simp only [sizesOf, compacts, List.getD_eq_getElem?_getD, List.getElem?_map,
      List.getElem?_eq_getElem hi', Option.map_some, Option.getD_some]
    omega
  · obtain ⟨x, hx, rfl⟩ := List.mem_map.mp hbs
    exact isCompact_compactBytes hsize (hxs x hx)

lemma numbersOf_compacts {size : ℕ} {xs : List UInt64} (hxs : ∀ x ∈ xs, x.toNat < 256 ^ size) :
    numbersOf (compacts size xs) = xs := by
  rw [numbersOf, compacts, List.map_map]
  refine (List.map_congr_left fun x hx => ?_).trans (List.map_id xs)
  rw [Function.comp_apply, leNat_compactBytes (hxs x hx), UInt64.ofNat_toNat, id]

lemma compacts_numbersOf {size : ℕ} (hsize : size ≤ 8)
    (h : ∀ bs ∈ bss, IsCompact bs ∧ bs.length ≤ size) : compacts size (numbersOf bss) = bss := by
  rw [compacts, numbersOf, List.map_map]
  refine (List.map_congr_left fun bs hbs => ?_).trans (List.map_id bss)
  obtain ⟨hc, hlen⟩ := h bs hbs
  have hlt : leNat bs < 2 ^ 64 := (leNat_lt bs).trans_le (by
    calc 256 ^ bs.length ≤ 256 ^ 8 := Nat.pow_le_pow_right (by omega) (by omega)
      _ = 2 ^ 64 := by norm_num)
  rw [Function.comp_apply, UInt64.toNat_ofNat', Nat.mod_eq_of_lt hlt, compactBytes_leNat hc hlen, id]

/-- What is written for a header whose parents are of its epoch is laid out as this header. -/
lemma EventHeaderData.Headers.layout (hh : e.Headers emptyTxHash header3 header2)
    (hcount : e.parents.length < 2 ^ 32)
    (hepoch : ∀ p ∈ e.parents, p.val.take 4 = epochBytes e.epoch) :
    Layout emptyTxHash e (header3 ++ header2 ++ e.body emptyTxHash) header3 header2
      (compacts 8 e.fields64) (compacts 4 (e.fields32.map UInt32.toUInt64)) := by
  have h64 : ∀ x ∈ e.fields64, x.toNat < 256 ^ 8 := fun x _ => x.toNat_lt
  have h32 : ∀ x ∈ e.fields32.map UInt32.toUInt64, x.toNat < 256 ^ 4 := by
    intro x hx
    obtain ⟨y, -, rfl⟩ := List.mem_map.mp hx
    rw [UInt32.toNat_toUInt64]
    exact y.toNat_lt
  exact
    { raw := by simp [EventHeaderData.body]
      length3 := hh.length3
      length2 := hh.length2
      length64 := by simp [compacts, EventHeaderData.fields64]
      length32 := by simp [compacts, EventHeaderData.fields32]
      announced64 := announced_compacts (by omega) h64 fun i _ => by rw [Nat.zero_add, hh.field3]
      announced32 := announced_compacts (by omega) h32 fun i hi => by
        rw [Nat.zero_add, hh.size2 (by simpa [EventHeaderData.fields32] using hi)]
      fields64 := (numbersOf_compacts h64).symm
      fields32 := by
        rw [numbersOf_compacts h32, List.map_map]
        exact ((List.map_congr_left fun x _ => by simp).trans (List.map_id _)).symm
      fieldsBool := by
        have h7 := hh.flag2 0
        have h8 := hh.flag2 1
        have h9 := hh.flag2 2
        simp [flagsOf, EventHeaderData.fieldsBool] at h7 h8 h9 ⊢
        simp [h7, h8, h9]
      parents_lt := hcount
      parents_epoch := hepoch }

/-- A header whose parents are of its epoch is read back as it was written, whatever lies behind the
bytes. -/
theorem unmarshalBinary_marshalBinary (emptyTxHash : HashBytes) (e : EventHeaderData)
    (hcount : e.parents.length < 2 ^ 32)
    (hepoch : ∀ p ∈ e.parents, p.val.take 4 = epochBytes e.epoch) :
    ∃ raw, e.marshalBinary emptyTxHash = .ok raw ∧
      ∀ spare, unmarshalBinary emptyTxHash ⟨raw, spare⟩ = .ok e := by
  obtain ⟨header3, header2, hh, hrun⟩ := e.marshalBinary_ok emptyTxHash
  refine ⟨_, hrun, fun spare => unmarshalBinary_eq_ok_iff.mpr ?_⟩
  exact ⟨header3, header2, _, _, hh.layout hcount hepoch⟩

namespace Codec

/-- The header of an event with only gas left. -/
def header : EventHeaderData :=
  { version := 0, epoch := 0, seq := 0, frame := 0, isRoot := false, creator := 0
    prevEpochHash := .zero, parents := [], gasPowerLeft := (5, 0), gasPowerUsed := 0, lamport := 0
    claimedTime := 0, medianTime := 0, txHash := Codec.emptyTxHash, extra := [] }

/-- A header of epoch seven with two parents. -/
def child : EventHeaderData :=
  { version := 1, epoch := 7, seq := 3, frame := 2, isRoot := true, creator := 5
    prevEpochHash := ⟨List.replicate 32 8, rfl⟩
    parents := [⟨[0, 0, 0, 7] ++ List.replicate 28 9, rfl⟩,
      ⟨[0, 0, 0, 7] ++ List.replicate 28 10, rfl⟩]
    gasPowerLeft := (18446744073709551615, 1), gasPowerUsed := 21000, lamport := 300
    claimedTime := 1600000000, medianTime := 1599999999, txHash := .zero, extra := [1, 0] }

/-- The bytes that are written for it. -/
def childRaw : List UInt8 :=
  [7, 49, 3, 0, 68, 0] ++ (List.replicate 8 255 ++ [1, 8, 82, 0, 16, 94, 95, 255, 15, 94, 95]) ++
    [1, 7, 3, 2, 5, 44, 1, 2] ++ (List.replicate 28 9 ++ List.replicate 28 10) ++
    List.replicate 32 8 ++ List.replicate 32 0 ++ [1, 0]

/-- The bytes that are written for the header with only gas left. -/
def raw : List UInt8 := [0, 0, 0, 0, 0, 5] ++ [5] ++ List.replicate 11 0

end Codec

theorem unmarshalBinary_marshalBinary_child :
    ∃ raw, Codec.child.marshalBinary Codec.emptyTxHash = .ok raw ∧
      ∀ spare, unmarshalBinary Codec.emptyTxHash ⟨raw, spare⟩ = .ok Codec.child :=
  unmarshalBinary_marshalBinary Codec.emptyTxHash Codec.child (by decide) (by decide)

/-! ### Canonical bit arrays -/

/-- The bit arrays hold nothing that is never written: no size above eight, no flag but zero and one,
and zeros behind the last number. -/
def CanonicalHeader (raw : List UInt8) : Prop :=
  (∀ i < 5, field 4 (raw.take 3) i < 8) ∧ field 4 (raw.take 3) 5 = 0 ∧
    (∀ i < 3, field 2 ((raw.drop 3).take 3) (7 + i) < 2) ∧
    ∀ i < 2, field 2 ((raw.drop 3).take 3) (10 + i) = 0

instance (raw : List UInt8) : Decidable (CanonicalHeader raw) :=
  inferInstanceAs (Decidable (_ ∧ _ ∧ _ ∧ _))

lemma Announced.length_le {bits offset n : ℕ} {header : List UInt8}
    (h : Announced bits header offset bss)
    (hn : ∀ i < bss.length, field bits header (offset + i) < n) : ∀ bs ∈ bss, bs.length ≤ n := by
  intro bs hbs
  obtain ⟨i, hi, rfl⟩ := List.mem_iff_getElem.mp hbs
  have hsize := h.size i hi
  rw [List.getD_eq_getElem?_getD, List.getElem?_eq_getElem hi, Option.getD_some] at hsize
  have := hn i hi
  omega

lemma Announced.field_eq {bits : ℕ} {header : List UInt8} (h : Announced bits header 0 bss) {i : ℕ}
    (hi : i < bss.length) : field bits header i = (sizesOf bss).getD i 0 := by
  have hsize := h.size i hi
  rw [Nat.zero_add, List.getD_eq_getElem?_getD, List.getElem?_eq_getElem hi,
    Option.getD_some] at hsize
  rw [sizesOf, List.getD_eq_getElem?_getD, List.getElem?_map, List.getElem?_eq_getElem hi,
    Option.map_some, Option.getD_some]
  omega

lemma sizesOf_compacts_lt {size : ℕ} (hsize : 0 < size) (xs : List UInt64) (i : ℕ) :
    (sizesOf (compacts size xs)).getD i 0 < size := by
  rw [sizesOf, compacts, List.map_map, List.getD_eq_getElem?_getD, List.getElem?_map]
  cases xs[i]? with
  | none => exact hsize
  | some x =>
    have := length_compactBytes_le size x.toNat
    simp only [Option.map_some, Option.getD_some, Function.comp_apply]
    omega

lemma flagsOf_lt (flags : List Bool) (i : ℕ) : (flagsOf flags).getD i 0 < 2 := by
  rw [flagsOf, List.getD_eq_getElem?_getD, List.getElem?_map]
  cases flags[i]? with
  | none => simp
  | some f => cases f <;> simp

namespace Layout

variable {raw : List UInt8} {b64 b32 : List (List UInt8)}

variable (h : Layout emptyTxHash e raw header3 header2 b64 b32)
include h

lemma take_three : raw.take 3 = header3 := by
  rw [h.raw, List.append_assoc, List.take_left' h.length3]

lemma drop_three : (raw.drop 3).take 3 = header2 := by
  rw [h.raw, List.append_assoc, List.drop_left' h.length3, List.take_left' h.length2]

lemma compacts_fields32 : compacts 4 (e.fields32.map UInt32.toUInt64) = b32 := by
  have hle := h.announced32.length_le fun i _ => field_lt 2 header2 (0 + i)
  have hnumbers : e.fields32.map UInt32.toUInt64 = numbersOf b32 := by
    rw [h.fields32, List.map_map]
    refine (List.map_congr_left fun x hx => ?_).trans (List.map_id _)
    obtain ⟨bs, hbs, rfl⟩ := List.mem_map.mp hx
    have hlt : leNat bs < 2 ^ 32 := (leNat_lt bs).trans_le (by
      calc 256 ^ bs.length ≤ 256 ^ 4 := Nat.pow_le_pow_right (by omega) (hle bs hbs)
        _ = 2 ^ 32 := by norm_num)
    apply UInt64.toNat_inj.mp
    simp only [Function.comp_apply, UInt32.toNat_toUInt64, UInt64.toNat_toUInt32,
      UInt64.toNat_ofNat', id]
    omega
  rw [hnumbers]
  exact compacts_numbersOf (by omega) fun bs hbs => ⟨h.announced32.compact bs hbs, hle bs hbs⟩

lemma compacts_fields64 (hsize : ∀ i < 5, field 4 header3 i < 8) : compacts 8 e.fields64 = b64 := by
  have hle := h.announced64.length_le fun i hi => by
    rw [Nat.zero_add]
    exact hsize i (by rwa [h.length64] at hi)
  rw [h.fields64]
  exact compacts_numbersOf (by omega) fun bs hbs => ⟨h.announced64.compact bs hbs, hle bs hbs⟩

end Layout

/-- What is written is canonical. -/
lemma canonicalHeader_of_marshalBinary {raw : List UInt8}
    (h : e.marshalBinary emptyTxHash = .ok raw) : CanonicalHeader raw := by
  obtain ⟨header3, header2, hh, hrun⟩ := e.marshalBinary_ok emptyTxHash
  obtain rfl : header3 ++ header2 ++ e.body emptyTxHash = raw := Except.ok.inj (hrun.symm.trans h)
  have htake : (header3 ++ header2 ++ e.body emptyTxHash).take 3 = header3 := by
    rw [List.append_assoc, List.take_left' hh.length3]
  have hdrop : ((header3 ++ header2 ++ e.body emptyTxHash).drop 3).take 3 = header2 := by
    rw [List.append_assoc, List.drop_left' hh.length3, List.take_left' hh.length2]
  rw [CanonicalHeader, htake, hdrop]
  refine ⟨fun i _ => ?_, ?_, fun i hi => ?_, fun i hi => ?_⟩
  · rw [hh.field3]
    exact sizesOf_compacts_lt (by omega) _ i
  · rw [hh.field3]
    simp [sizesOf, compacts, EventHeaderData.fields64]
  · rw [hh.flag2]
    exact flagsOf_lt _ i
  · have := hh.flag2 (3 + i)
    rw [← Nat.add_assoc] at this
    rw [this, flagsOf, EventHeaderData.fieldsBool]
    interval_cases i <;> rfl

/-- Canonical bytes are written again as they were read. -/
lemma marshalBinary_of_canonicalHeader {raw : Slice} (h : unmarshalBinary emptyTxHash raw = .ok e)
    (hcan : CanonicalHeader raw.data) :
    e.marshalBinary emptyTxHash = .ok raw.data := by
  obtain ⟨header3, header2, b64, b32, hl⟩ := unmarshalBinary_eq_ok_iff.mp h
  obtain ⟨header3', header2', hh, hrun⟩ := e.marshalBinary_ok emptyTxHash
  rw [CanonicalHeader, hl.take_three, hl.drop_three] at hcan
  obtain ⟨hsize, hpad3, hflag, hpad2⟩ := hcan
  have h64 := hl.compacts_fields64 hsize
  have h32 := hl.compacts_fields32
  have h3 : header3' = header3 := by
    refine eq_of_field_eq (w := 4) (by decide) (hh.length3.trans hl.length3.symm) fun i hi => ?_
    rw [hh.length3] at hi
    rw [hh.field3, h64]
    rcases Nat.lt_or_ge i 5 with h5 | h5
    · exact (hl.announced64.field_eq (by rwa [hl.length64])).symm
    · obtain rfl : i = 5 := by omega
      rw [hpad3, sizesOf, List.getD_eq_getElem?_getD, List.getElem?_eq_none (by simp [hl.length64]),
        Option.getD_none]
  have hbit : ∀ n < 2, (if decide (n ≠ 0) then 1 else 0) = n := by decide
  have h2 : header2' = header2 := by
    refine eq_of_field_eq (w := 2) (by decide) (hh.length2.trans hl.length2.symm) fun i hi => ?_
    rw [hh.length2] at hi
    rcases Nat.lt_or_ge i 7 with h7 | h7
    · rw [hh.size2 h7, h32]
      exact (hl.announced32.field_eq (by rwa [hl.length32])).symm
    · obtain ⟨j, rfl⟩ := Nat.exists_eq_add_of_le h7
      rw [hh.flag2, hl.fieldsBool, flagsOf]
      have hj : j < 5 := by omega
      interval_cases j
      · exact hbit _ (hflag 0 (by omega))
      · exact hbit _ (hflag 1 (by omega))
      · exact hbit _ (hflag 2 (by omega))
      · simpa using (hpad2 0 (by omega)).symm
      · simpa using (hpad2 1 (by omega)).symm
  rw [hrun, h3, h2, hl.raw, EventHeaderData.body, h64, h32]
  simp only [List.append_assoc]

/-- Of the byte strings that are accepted, exactly those with canonical bit arrays are written for
the header they are read as; so no two of them are read as the same header. -/
theorem marshalBinary_eq_iff_canonicalHeader (emptyTxHash : HashBytes) (raw : Slice)
    (e : EventHeaderData) (h : unmarshalBinary emptyTxHash raw = .ok e) :
    (e.marshalBinary emptyTxHash = .ok raw.data ↔ CanonicalHeader raw.data) ∧
      ∀ raw' : Slice, CanonicalHeader raw.data → CanonicalHeader raw'.data →
        unmarshalBinary emptyTxHash raw' = .ok e → raw'.data = raw.data := by
  refine ⟨⟨canonicalHeader_of_marshalBinary, marshalBinary_of_canonicalHeader h⟩, ?_⟩
  intro raw' hcan hcan' h'
  have hrun := marshalBinary_of_canonicalHeader h hcan
  have hrun' := marshalBinary_of_canonicalHeader h' hcan'
  exact Except.ok.inj (hrun'.symm.trans hrun)

theorem marshalBinary_eq_iff_canonicalHeader_child :
    unmarshalBinary Codec.emptyTxHash ⟨Codec.childRaw, []⟩ = .ok Codec.child ∧
      Codec.child.marshalBinary Codec.emptyTxHash = .ok Codec.childRaw :=
  have h : unmarshalBinary Codec.emptyTxHash ⟨Codec.childRaw, []⟩ = .ok Codec.child := by
    decide +kernel
  ⟨h, (marshalBinary_eq_iff_canonicalHeader _ ⟨Codec.childRaw, []⟩ _ h).1.mpr (by decide +kernel)⟩

namespace Codec

/-- Its bytes with the gas in nine of them. -/
def nineBytes : List UInt8 := [8, 0, 0, 0, 0, 5] ++ [5, 0, 0, 0, 0, 0, 0, 0, 1] ++ List.replicate 11 0

/-- Its bytes with a bit set behind the last size. -/
def padded : List UInt8 := [0, 0, 16, 0, 0, 5] ++ [5] ++ List.replicate 11 0

/-- Its bytes with two for a flag. -/
def flagTwo : List UInt8 := [0, 0, 0, 0, 0, 6] ++ [5] ++ List.replicate 11 0

end Codec

/-- A size above eight, a bit behind the last number and a flag other than zero and one are all
accepted. -/
theorem unmarshalBinary_nonCanonical :
    unmarshalBinary Codec.emptyTxHash ⟨Codec.nineBytes, []⟩ = .ok Codec.header ∧
    unmarshalBinary Codec.emptyTxHash ⟨Codec.padded, []⟩ = .ok Codec.header ∧
    unmarshalBinary Codec.emptyTxHash ⟨Codec.flagTwo, []⟩ = .ok Codec.header ∧
    Codec.header.marshalBinary Codec.emptyTxHash = .ok Codec.raw ∧
    Codec.raw ≠ Codec.nineBytes ∧ Codec.raw ≠ Codec.padded ∧ Codec.raw ≠ Codec.flagTwo := by
  decide +kernel

end Lachesis
