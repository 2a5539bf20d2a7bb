import Lachesis.Core.Packing

/-!
# Recursive length prefixes

Numbers and lists are written with their length in front, all lengths and numbers without leading
zeros and most significant byte first. Reading accepts nothing else, and reads back what was written.
-/

namespace Lachesis.Core.Rlp

/-- The bytes of a positive number of at most eight bytes, most significant first. -/
def beBytes (n : ℕ) : List UInt8 := (compactBytes 8 n).reverse

/-- The number that the bytes write. -/
def beNat (bs : List UInt8) : ℕ := leNat bs.reverse

/-- Eight bytes hold a number below `2 ^ 64`. -/
lemma beNat_beBytes {n : ℕ} (h : n < 256 ^ 8) : beNat (beBytes n) = n := by
  rw [beNat, beBytes, List.reverse_reverse, leNat_compactBytes h]

lemma length_beBytes_le (n : ℕ) : (beBytes n).length ≤ 8 := by
  rw [beBytes, List.length_reverse]
  exact length_compactBytes_le 8 n

lemma length_beBytes_pos (n : ℕ) : 0 < (beBytes n).length := by
  rw [beBytes, List.length_reverse]
  exact length_compactBytes_pos (by decide) n

/-- A number has no leading zero byte. -/
lemma head?_beBytes {n : ℕ} (hpos : 0 < n) (h : n < 256 ^ 8) : (beBytes n).head? ≠ some 0 := by
  rw [beBytes, List.head?_reverse]
  obtain ⟨-, hlast⟩ := isCompact_compactBytes (show 0 < 8 by decide) h
  rcases Nat.lt_or_ge 1 (compactBytes 8 n).length with hlen | hlen
  · exact hlast hlen
  · -- the only byte is the number itself
    have hone : (compactBytes 8 n).length = 1 :=
      Nat.le_antisymm hlen (length_compactBytes_pos (by decide) n)
    obtain ⟨b, hb⟩ := List.length_eq_one_iff.mp hone
    have hnat := leNat_compactBytes h
    rw [hb] at hnat ⊢
    rintro hzero
    obtain rfl : b = 0 := by simpa using hzero
    simp [leNat] at hnat
    exact hpos.ne hnat

/-! ### Numbers -/

def encodeUint (n : ℕ) : List UInt8 :=
  if n = 0 then [0x80]
  else if n < 0x80 then [UInt8.ofNat n]
  else UInt8.ofNat (0x80 + (beBytes n).length) :: beBytes n

/-- A number of at most `w` bytes, and what follows it. -/
def decodeUint (w : ℕ) : List UInt8 → Option (ℕ × List UInt8)
  | [] => none
  | b :: bs =>
    if b.toNat < 0x80 then if b = 0 then none else some (b.toNat, bs)
    else
      let k := b.toNat - 0x80
      if w < k ∨ bs.length < k ∨ (bs.take k).head? = some 0 ∨ (k = 1 ∧ beNat (bs.take k) < 0x80)
      then none
      else some (beNat (bs.take k), bs.drop k)

lemma length_beBytes_le_of_lt {w n : ℕ} (hpos : 0 < w) (hw : w ≤ 8) (h : n < 256 ^ w) :
    (beBytes n).length ≤ w := by
  have heq : compactBytes 8 (leNat (compactBytes w n)) = compactBytes w n :=
    compactBytes_leNat (isCompact_compactBytes hpos h) ((length_compactBytes_le w n).trans hw)
  rw [leNat_compactBytes h] at heq
  rw [beBytes, List.length_reverse, heq]
  exact length_compactBytes_le w n

lemma toNat_ofNat_add {base k : ℕ} (h : base + k < 256) :
    (UInt8.ofNat (base + k)).toNat = base + k := by
  rw [UInt8.toNat_ofNat', Nat.mod_eq_of_lt h]

/-- A number is read back, whatever follows it. -/
lemma decodeUint_encodeUint {w n : ℕ} (hpos : 0 < w) (hw : w ≤ 8) (h : n < 256 ^ w)
    (rest : List UInt8) : decodeUint w (encodeUint n ++ rest) = some (n, rest) := by
  have h8 : n < 256 ^ 8 := h.trans_le (Nat.pow_le_pow_right (by decide) hw)
  unfold encodeUint
  split_ifs with hzero hsmall
  · simp [decodeUint, hzero, beNat, leNat]
  · have hb : (UInt8.ofNat n).toNat = n := by
      rw [UInt8.toNat_ofNat', Nat.mod_eq_of_lt (by omega)]
    have hne : UInt8.ofNat n ≠ 0 := by
      intro h0
      rw [h0] at hb
      exact hzero hb.symm
    simp [decodeUint, hb, hsmall, hne]
  · have hlen := length_beBytes_le_of_lt hpos hw h
    have hb := toNat_ofNat_add (show 0x80 + (beBytes n).length < 256 by omega)
    have hnat := beNat_beBytes h8
    have hhead := head?_beBytes (Nat.pos_of_ne_zero hzero) h8
    have hsub : 0x80 + (beBytes n).length - 0x80 = (beBytes n).length := Nat.add_sub_cancel_left _ _
    rw [List.cons_append, decodeUint, hb, if_neg (by omega), hsub]
    simp only [List.take_left', List.drop_left', hnat]
    rw [if_neg]
    simp only [List.length_append, not_or, not_and, not_lt]
    exact ⟨hlen, Nat.le_add_right _ _, hhead, fun _ => Nat.le_of_not_lt hsmall⟩

lemma length_encodeUint_le (n : ℕ) : (encodeUint n).length ≤ 9 := by
  have := length_beBytes_le n
  unfold encodeUint
  split_ifs <;> simp
  omega

/-! ### Lists -/

/-- A list whose items are written as `payload`. -/
def encodeList (payload : List UInt8) : List UInt8 :=
  if payload.length < 56 then UInt8.ofNat (0xc0 + payload.length) :: payload
  else
    UInt8.ofNat (0xf7 + (beBytes payload.length).length) :: (beBytes payload.length ++ payload)

/-- The payload of a list of `k` bytes, and what follows. -/
def splitPayload (k : ℕ) (bs : List UInt8) : Option (List UInt8 × List UInt8) :=
  if bs.length < k then none else some (bs.take k, bs.drop k)

/-- The payload of a list, and what follows the list. -/
def decodeList : List UInt8 → Option (List UInt8 × List UInt8)
  | [] => none
  | b :: bs =>
    if b.toNat < 0xc0 then none
    else if b.toNat < 0xf8 then splitPayload (b.toNat - 0xc0) bs
    else
      let k := b.toNat - 0xf7
      if bs.length < k ∨ (bs.take k).head? = some 0 ∨ beNat (bs.take k) < 56 then none
      else splitPayload (beNat (bs.take k)) (bs.drop k)

lemma splitPayload_append (payload rest : List UInt8) :
    splitPayload payload.length (payload ++ rest) = some (payload, rest) := by
  simp [splitPayload]

/-- A list is read back as the bytes of its items. -/
lemma decodeList_encodeList {payload : List UInt8} (h : payload.length < 256 ^ 8)
    (rest : List UInt8) : decodeList (encodeList payload ++ rest) = some (payload, rest) := by
  unfold encodeList
  split_ifs with hshort
  · have hb := toNat_ofNat_add (show 0xc0 + payload.length < 256 by omega)
    rw [List.cons_append, decodeList, hb, if_neg (by omega), if_pos (by omega),
      Nat.add_sub_cancel_left, splitPayload_append]
  · have hle := length_beBytes_le payload.length
    have hpos := length_beBytes_pos payload.length
    have hb := toNat_ofNat_add (show 0xf7 + (beBytes payload.length).length < 256 by omega)
    have hnat := beNat_beBytes h
    have hhead := head?_beBytes (show 0 < payload.length by omega) h
    rw [List.cons_append, decodeList, hb, if_neg (by omega), if_neg (by omega),
      Nat.add_sub_cancel_left, List.append_assoc]
    simp only [List.take_left', List.drop_left', hnat, splitPayload_append]
    rw [if_neg]
    simp only [List.length_append, not_or, not_lt]
    exact ⟨Nat.le_add_right _ _, hhead, Nat.le_of_not_lt hshort⟩

section Items

variable {α : Type} (encode : α → List UInt8) (decode : List UInt8 → Option (α × List UInt8))

/-- The items of a payload, each at least a byte. -/
def decodeItems : ℕ → List UInt8 → Option (List α)
  | _, [] => some []
  | 0, _ :: _ => none
  | fuel + 1, b :: bs => do
    let r ← decode (b :: bs)
    let items ← decodeItems fuel r.2
    some (r.1 :: items)

variable {encode decode}

/-- Items that are read back one by one are read back as a list. -/
lemma decodeItems_flatMap {items : List α}
    (hdecode : ∀ a ∈ items, ∀ rest, decode (encode a ++ rest) = some (a, rest))
    (hne : ∀ a ∈ items, encode a ≠ []) {fuel : ℕ} (hfuel : items.length ≤ fuel) :
    decodeItems decode fuel (items.flatMap encode) = some items := by
  induction items generalizing fuel with
  | nil => cases fuel <;> rfl
  | cons a items ih =>
    obtain ⟨fuel, rfl⟩ := Nat.exists_eq_succ_of_ne_zero (Nat.ne_zero_of_lt hfuel)
    obtain ⟨b, bs, hbs⟩ := List.exists_cons_of_ne_nil (hne a (by simp))
    have hrest := ih (fun a' ha' => hdecode a' (List.mem_cons_of_mem _ ha'))
      (fun a' ha' => hne a' (List.mem_cons_of_mem _ ha')) (Nat.le_of_succ_le_succ hfuel)
    have hfirst := hdecode a (by simp) (items.flatMap encode)
    rw [List.flatMap_cons]
    rw [hbs] at hfirst ⊢
    simp only [List.cons_append] at hfirst ⊢
    simp [decodeItems, hfirst, hrest]

end Items

end Lachesis.Core.Rlp
