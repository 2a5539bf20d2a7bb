import Lachesis.Inter.EventCodec

/-!
# The space for the parents

`UnmarshalBinary` allocates the parents of an event as soon as it has read their number, before it
reads any of them. Where that number stands and how long it is follows from the bit arrays.
-/

namespace Lachesis

open Lachesis.Core Fast

/-- What `UnmarshalBinary` asks for: the number of parents, with the number of bytes that it has not
read by then. -/
def parentsSpace (raw : Slice) : Except SerializerErr (ℕ × ℤ) :=
  (beforeParents raw).map fun (raw, buf, _, f32, _) =>
    ((f32.getD 6 0).toNat, raw.data.length - buf.position)

/-! ### The number in the bytes -/

/-- The size of the `i`-th number, as the bit arrays have it: five of four bits, seven of two. -/
def sizeSlot (bs : List UInt8) (i : ℕ) : ℕ :=
  if i < 5 then field 4 bs i + 1 else field 2 (bs.drop 3) (i - 5) + 1

/-- Where the number of parents starts: it is the last of the twelve. -/
def countStart (bs : List UInt8) : ℕ := 6 + ((List.range 11).map (sizeSlot bs)).sum

/-- The number of parents that the bytes announce. -/
def announcedParents (bs : List UInt8) : ℕ :=
  leNat ((bs.drop (countStart bs)).take (sizeSlot bs 11))

lemma field_append {w i : ℕ} {bs t : List UInt8} (h : i * w / 8 < bs.length) :
    field w (bs ++ t) i = field w bs i := by
  rw [field, field, List.getD_append _ _ _ _ h]

namespace Opened

variable {raw rest : Slice} {buf : Buffer} {header3 header2 : List UInt8}
  {b64 b32 : List (List UInt8)}

variable (h : Opened raw rest buf header3 header2 b64 b32)
include h

lemma all_eq : raw.all = header3 ++ header2 ++ ((b64 ++ b32).flatten ++ buf.rest) := by
  have hrest : rest.all = b64.flatten ++ b32.flatten ++ buf.rest := h.reads.rest
  rw [List.flatten_append, ← hrest, Slice.all, Slice.all, h.data, h.spare, List.append_assoc]

lemma length_getD {i : ℕ} (hi : i < 12) : ((b64 ++ b32).getD i []).length = sizeSlot raw.all i := by
  rw [h.all_eq, sizeSlot]
  split_ifs with h5
  · rw [List.getD_append _ _ _ _ (by rw [h.length64]; exact h5), h.announced64.size i
      (by rw [h.length64]; exact h5), Nat.zero_add, List.append_assoc,
      field_append (by rw [h.length3]; omega)]
  · rw [List.getD_append_right _ _ _ _ (by rw [h.length64]; omega), h.length64,
      h.announced32.size (i - 5) (by rw [h.length32]; omega), Nat.zero_add, List.append_assoc,
      List.drop_left' h.length3, field_append (by rw [h.length2]; omega)]

lemma length_numbers : (b64 ++ b32).length = 12 := by
  rw [List.length_append, h.length64, h.length32]

/-- The eleven numbers before it end where the number of parents starts. -/
lemma countStart_eq : countStart raw.all = 6 + ((b64 ++ b32).take 11).flatten.length := by
  have hlen := h.length_numbers
  have hsize : ∀ i < 12, ((b64 ++ b32).getD i []).length = sizeSlot raw.all i :=
    fun i hi => h.length_getD hi
  generalize b64 ++ b32 = bss at hlen hsize ⊢
  rw [countStart, List.length_flatten]
  congr 2
  apply List.ext_getElem
  · simp [hlen]
  · intro i hi _
    have hi' : i < 11 := by simpa using hi
    have hsize := hsize i (by omega)
    rw [List.getD_eq_getElem _ _ (by omega)] at hsize
    simp [← hsize]

/-- What is read as the number of parents, and where the cursor is then. -/
lemma count_eq :
    ((((numbersOf b32).map UInt64.toUInt32).getD 6 0).toNat = announcedParents raw.all) ∧
      6 + buf.offset = countStart raw.all + sizeSlot raw.all 11 := by
  have hlast : (b64 ++ b32).getD 11 [] = b32.getD 6 [] := by
    rw [List.getD_append_right _ _ _ _ (by rw [h.length64]; omega), h.length64]
  have hsplit : (b64 ++ b32).flatten =
      ((b64 ++ b32).take 11).flatten ++ (b64 ++ b32).getD 11 [] := by
    have hlen := h.length_numbers
    generalize b64 ++ b32 = bss at hlen ⊢
    have hdrop : bss.drop 11 = [bss.getD 11 []] := by
      rw [List.drop_eq_getElem_cons (by omega), List.drop_of_length_le (by omega),
        List.getD_eq_getElem _ _ (by omega)]
    rw [← List.flatten_concat, ← hdrop, List.take_append_drop]
  have hsize := h.length_getD (i := 11) (by omega)
  rw [hlast] at hsize hsplit
  constructor
  · have hstart : (header3 ++ header2 ++ ((b64 ++ b32).take 11).flatten).length =
        countStart raw.all := by
      rw [h.countStart_eq, List.length_append, List.length_append, h.length3, h.length2]
    have hbytes : (raw.all.drop (countStart raw.all)).take (sizeSlot raw.all 11) =
        b32.getD 6 [] := by
      rw [← hstart, ← hsize, h.all_eq, hsplit, List.append_assoc _ _ buf.rest, ← List.append_assoc,
        List.drop_left, List.take_left]
    have hlt : leNat (b32.getD 6 []) < 2 ^ 32 := by
      refine (leNat_lt _).trans_le ?_
      rw [h.announced32.size 6 (by rw [h.length32]; omega)]
      calc 256 ^ (field 2 header2 (0 + 6) + 1) ≤ 256 ^ 4 :=
            Nat.pow_le_pow_right (by omega) (field_lt 2 header2 (0 + 6))
        _ = 2 ^ 32 := by norm_num
    rw [announcedParents, hbytes, numbersOf, List.map_map, List.getD_eq_getElem _ _
      (by simp [h.length32]), List.getElem_map]
    rw [List.getD_eq_getElem _ _ (by rw [h.length32]; omega)] at hlt ⊢
    simp only [Function.comp_apply, UInt64.toNat_toUInt32, UInt64.toNat_ofNat']
    omega
  · have hoffset := h.reads.offset
    rw [← List.flatten_append, hsplit, List.length_append, hsize] at hoffset
    rw [h.countStart_eq, hoffset]
    simp only [newBuffer]
    omega

end Opened

/-- The parents that are allocated fit into the bytes that are left exactly if the announced ones fit
behind their number, and so whenever the bytes are accepted. -/
theorem parentsSpace_fits_iff (emptyTxHash : HashBytes) {raw : Slice} {count : ℕ} {left : ℤ}
    (h : parentsSpace raw = .ok (count, left)) :
    ((count : ℤ) * 28 ≤ left ↔
      countStart raw.all + sizeSlot raw.all 11 + announcedParents raw.all * 28 ≤
        raw.data.length) ∧
    ∀ e, unmarshalBinary emptyTxHash raw = .ok e → (count : ℤ) * 28 ≤ left := by
  obtain ⟨⟨rest, buf, f64, f32, fb⟩, hbefore, heq⟩ := map_eq_ok_iff.mp h
  simp only [Prod.mk.injEq] at heq
  obtain ⟨rfl, rfl⟩ := heq
  constructor
  · obtain ⟨header3, header2, b64, b32, ho, -, rfl, -⟩ := beforeParents_eq_ok_iff.mp hbefore
    obtain ⟨hcount, hoffset⟩ := ho.count_eq
    have hlen : raw.data.length = 6 + rest.data.length := by
      rw [ho.data, List.length_append, List.length_append, ho.length3, ho.length2]
    rw [hcount, Buffer.position]
    omega
  · intro e he
    rw [unmarshalBinary, hbefore] at he
    obtain ⟨header3, header2, b64, b32, ho, -, -, -⟩ := beforeParents_eq_ok_iff.mp hbefore
    obtain ⟨-, hf32, -, hlt, -, buf', hend, hreads⟩ :=
      (unmarshalRest_eq_ok_iff (ho.reads.offset_le (Nat.zero_le _))).mp he
    have hcount : (f32.getD 6 0).toNat = e.parents.length := by
      rw [hf32]
      exact UInt32.toNat_ofNat_of_lt' hlt
    have hoffset := hreads.offset
    rw [hend, List.length_append, List.length_append, List.length_append, length_parentBytes]
      at hoffset
    rw [hcount, Buffer.position]
    omega

theorem parentsSpace_fits_iff_child :
    parentsSpace ⟨Codec.childRaw, [1]⟩ = .ok (2, 122) ∧ (2 : ℤ) * 28 ≤ 122 ∧
      announcedParents (Codec.childRaw ++ [1]) = 2 :=
  have h : parentsSpace ⟨Codec.childRaw, [1]⟩ = .ok (2, 122) := by decide +kernel
  ⟨h, (parentsSpace_fits_iff Codec.emptyTxHash h).1.mpr (by decide +kernel), by decide +kernel⟩

/-- A string that announces parents after its last byte. -/
def announcing : List UInt8 := [0, 0, 0, 0, 48, 0] ++ List.replicate 11 0 ++ List.replicate 4 255

/-- 21 bytes make the node ask for `2 ^ 32 - 1` parents. -/
theorem parentsSpace_announcing : announcing.length = 21 ∧
    parentsSpace ⟨announcing, []⟩ = .ok (4294967295, 0) ∧ ¬ (4294967295 : ℤ) * 28 ≤ 0 := by
  decide +kernel

end Lachesis
