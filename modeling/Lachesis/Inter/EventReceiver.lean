import Lachesis.Inter.EventCodec

/-!
# Decoding into a header that is in use

`UnmarshalBinary` writes the fields of its receiver. All of them are overwritten but the previous
epoch's hash, which stays as it was if the bytes leave it out. What the bytes leave out of the parts
before the extra data, by being cut off, is an error.
-/

namespace Lachesis

open Lachesis.Core Fast

/-! ### Reading over old values -/

namespace HashBytes

/-- `Hash.SetBytes`: the last 32 bytes are copied to the end of the hash. -/
def setBytesOver (h : HashBytes) (b : List UInt8) : HashBytes :=
  ⟨h.val.take (32 - b.length) ++ b.drop (b.length - 32), by
    have := h.property
    simp
    omega⟩

lemma setBytesOver_eq (h : HashBytes) {b : List UInt8} (hb : b.length = 32) :
    h.setBytesOver b = setBytes b := by
  apply Subtype.ext
  simp [setBytesOver, setBytes, hb]

end HashBytes

/-- A hash that is read over the value `old`. It becomes `empty` if it is left out, and must not be
`dflt` otherwise. -/
def readHashOver (old empty dflt : HashBytes) (isEmpty : Bool) (buf : Buffer) :
    Except SerializerErr (HashBytes × Buffer) :=
  if isEmpty then .ok (empty, buf)
  else do
    let (bs, buf) ← recovered (buf.read 32)
    if old.setBytesOver bs = dflt then .error .nonCanonicalEncoding
    else .ok (old.setBytesOver bs, buf)

namespace EventHeaderData

/-- `UnmarshalBinary` from where the numbers and flags are read, in a buffer of `size` bytes. There
is no `else` for the previous epoch's hash. -/
def unmarshalRest (e : EventHeaderData) (emptyTxHash : HashBytes) (size : ℕ) (buf : Buffer) :
    List UInt64 → List UInt32 → List Bool → Except SerializerErr EventHeaderData
  | [gas0, gas1, gasPowerUsed, claimedTime, medianTime],
    [version, epoch, seq, frame, creator, lamport, parentCount],
    [isRoot, isPrevEpochHashEmpty, isTxHashEmpty] => do
    let (parents, buf) ← readParents epoch parentCount.toNat buf
    let (prevEpochHash, buf) ←
      readHashOver e.prevEpochHash e.prevEpochHash .zero isPrevEpochHashEmpty buf
    let (txHash, buf) ← readHashOver e.txHash emptyTxHash emptyTxHash isTxHashEmpty buf
    let (extra, _) ← recovered (buf.read (size - buf.position))
    return { e with
             version, epoch, seq, frame, isRoot, creator, prevEpochHash, parents,
             gasPowerLeft := (gas0, gas1), gasPowerUsed, lamport, claimedTime, medianTime,
             txHash, extra }
  -- every loop gives as many values as it was asked for
  | _, _, _ => .error .invalidEncoding

/-- `EventHeaderData.UnmarshalBinary`: the receiver after a call that returns no error. -/
def unmarshalBinary (e : EventHeaderData) (emptyTxHash : HashBytes) (raw : Slice) :
    Except SerializerErr EventHeaderData := do
  let (raw, buf, fields64, fields32, fieldsBool) ← beforeParents raw
  e.unmarshalRest emptyTxHash raw.data.length buf fields64 fields32 fieldsBool

end EventHeaderData

/-! ### The old values that matter -/

lemma Fast.Buffer.length_of_read {buf buf' : Buffer} {n : ℕ} {bs : List UInt8}
    (h : buf.read n = .ok (bs, buf')) : bs.length = n := by
  unfold Buffer.read Slice.sub at h
  split_ifs at h with hle
  · cases h
    rw [List.length_drop, List.length_take]
    omega
  · cases h

lemma readHashOver_eq (old empty dflt : HashBytes) (isEmpty : Bool) (buf : Buffer) :
    readHashOver old empty dflt isEmpty buf = (readHash dflt isEmpty buf).map fun r =>
      (if isEmpty then empty else r.1, r.2) := by
  cases isEmpty with
  | true => rfl
  | false =>
    simp only [readHashOver, readHash, Bool.false_eq_true, if_false, bind]
    cases hread : buf.read 32 with
    | error err => rfl
    | ok r =>
      obtain ⟨bs, buf'⟩ := r
      have hlen : bs.length = 32 := Buffer.length_of_read hread
      simp only [recovered, Except.mapError, Except.bind, HashBytes.setBytesOver_eq old hlen]
      split_ifs <;> rfl

lemma ne_of_readHash {dflt h : HashBytes} {buf buf' : Buffer}
    (hrun : readHash dflt false buf = .ok (h, buf')) : h ≠ dflt := by
  simp only [readHash, Bool.false_eq_true, if_false, bind, bind_eq_ok_iff, Prod.exists] at hrun
  obtain ⟨bs, buf₁, -, hrun⟩ := hrun
  split_ifs at hrun with hne
  cases hrun
  exact hne

namespace EventHeaderData

/-- The receiver `e` after a header is read: the previous epoch's hash is kept if it is left out. -/
def decodedOver (e d : EventHeaderData) : EventHeaderData :=
  if d.prevEpochHash = .zero then { d with prevEpochHash := e.prevEpochHash } else d

lemma unmarshalRest_eq (e : EventHeaderData) (emptyTxHash : HashBytes) (size : ℕ) (buf : Buffer)
    (fields64 : List UInt64) (fields32 : List UInt32) (fieldsBool : List Bool) :
    e.unmarshalRest emptyTxHash size buf fields64 fields32 fieldsBool =
      (Lachesis.unmarshalRest emptyTxHash size buf fields64 fields32 fieldsBool).map
        e.decodedOver := by
  unfold unmarshalRest
  split
  case h_2 hno =>
    unfold Lachesis.unmarshalRest
    split
    · exact (hno _ _ _ _ _ _ _ _ _ _ _ _ _ _ _ rfl rfl rfl).elim
    · rfl
  rename_i gas0 gas1 used claimed median version epoch seq frame creator lamport parentCount
    isRoot isPrevEmpty isTxEmpty
  simp only [Lachesis.unmarshalRest, bind, readHashOver_eq]
  cases readParents epoch parentCount.toNat buf with
  | error err => rfl
  | ok parents =>
    simp only [Except.bind]
    cases hprev : readHash .zero isPrevEmpty parents.2 with
    | error err => rfl
    | ok prev =>
      simp only [Except.map]
      cases htx : readHash emptyTxHash isTxEmpty prev.2 with
      | error err => rfl
      | ok tx =>
        simp only
        cases recovered (tx.2.read (size - tx.2.position)) with
        | error err => rfl
        | ok extra =>
          have htx' : (if isTxEmpty then emptyTxHash else tx.1) = tx.1 := by
            cases isTxEmpty with
            | false => rfl
            | true => cases htx; rfl
          simp only [htx', pure, Except.pure, decodedOver, Except.ok.injEq]
          cases isPrevEmpty with
          | false => rw [if_neg (by exact Bool.false_ne_true), if_neg (ne_of_readHash hprev)]
          | true => cases hprev; rfl

/-- Decoding into a receiver is decoding into a fresh value, but for the previous epoch's hash. -/
theorem unmarshalBinary_eq (e : EventHeaderData) (emptyTxHash : HashBytes) (raw : Slice) :
    e.unmarshalBinary emptyTxHash raw =
      (Lachesis.unmarshalBinary emptyTxHash raw).map e.decodedOver := by
  unfold unmarshalBinary Lachesis.unmarshalBinary
  cases beforeParents raw with
  | error err => rfl
  | ok before => exact e.unmarshalRest_eq emptyTxHash _ _ _ _ _

end EventHeaderData

/-- The bytes are laid out as a header that leaves out the previous epoch's hash. -/
def LeavesOutPrevEpochHash (emptyTxHash : HashBytes) (bs : List UInt8) : Prop :=
  ∃ d header3 header2 b64 b32, Layout emptyTxHash d bs header3 header2 b64 b32 ∧
    d.prevEpochHash = .zero

variable {emptyTxHash : HashBytes}

lemma leavesOutPrevEpochHash_iff {raw : Slice} :
    LeavesOutPrevEpochHash emptyTxHash raw.data ↔
      ∃ d, unmarshalBinary emptyTxHash raw = .ok d ∧ d.prevEpochHash = .zero := by
  constructor
  · rintro ⟨d, header3, header2, b64, b32, hl, hzero⟩
    exact ⟨d, unmarshalBinary_eq_ok_iff.mpr ⟨header3, header2, b64, b32, hl⟩, hzero⟩
  · rintro ⟨d, hd, hzero⟩
    obtain ⟨header3, header2, b64, b32, hl⟩ := unmarshalBinary_eq_ok_iff.mp hd
    exact ⟨d, header3, header2, b64, b32, hl, hzero⟩

/-- Two receivers are the same after decoding exactly if they had the same previous epoch's hash, or
the bytes do not leave it out. -/
lemma unmarshalBinary_congr_iff (emptyTxHash : HashBytes) (raw : Slice) (e₁ e₂ : EventHeaderData) :
    e₁.unmarshalBinary emptyTxHash raw = e₂.unmarshalBinary emptyTxHash raw ↔
      e₁.prevEpochHash = e₂.prevEpochHash ∨ ¬ LeavesOutPrevEpochHash emptyTxHash raw.data := by
  rw [e₁.unmarshalBinary_eq, e₂.unmarshalBinary_eq, leavesOutPrevEpochHash_iff]
  cases unmarshalBinary emptyTxHash raw with
  | error err => simp [Except.map]
  | ok d =>
    simp only [Except.map, Except.ok.injEq, exists_eq_left', EventHeaderData.decodedOver]
    by_cases hzero : d.prevEpochHash = .zero
    · simp [hzero]
    · simp [hzero]

/-! ### Bytes that are cut off -/

variable {e : EventHeaderData}

lemma Layout.append {raw header3 header2 : List UInt8} {b64 b32 : List (List UInt8)}
    (h : Layout emptyTxHash e raw header3 header2 b64 b32) (t : List UInt8) :
    Layout emptyTxHash { e with extra := e.extra ++ t } (raw ++ t) header3 header2 b64 b32 :=
  { h with raw := by simp [h.raw] }

lemma unmarshalBinary_append {bs : List UInt8} (h : unmarshalBinary emptyTxHash ⟨bs, []⟩ = .ok e)
    (t : List UInt8) :
    unmarshalBinary emptyTxHash ⟨bs ++ t, []⟩ = .ok { e with extra := e.extra ++ t } := by
  obtain ⟨header3, header2, b64, b32, hl⟩ := unmarshalBinary_eq_ok_iff.mp h
  exact unmarshalBinary_eq_ok_iff.mpr ⟨header3, header2, b64, b32, hl.append t⟩

/-- The parent as it is read in an epoch. -/
def HashBytes.ofEpoch (epoch : UInt32) (p : HashBytes) : HashBytes :=
  ⟨epochBytes epoch ++ p.val.drop 4, by simp [length_epochBytes, p.property]⟩

namespace EventHeaderData

/-- The header with all parents put into its epoch. -/
def inEpoch (e : EventHeaderData) : EventHeaderData :=
  { e with parents := e.parents.map (HashBytes.ofEpoch e.epoch) }

lemma parentBytes_inEpoch (e : EventHeaderData) :
    parentBytes e.inEpoch.parents = parentBytes e.parents := by
  have hdrop : ∀ p, (HashBytes.ofEpoch e.epoch p).val.drop 4 = p.val.drop 4 :=
    fun p => List.drop_left' (length_epochBytes e.epoch)
  simp only [parentBytes, inEpoch, List.flatMap_map, hdrop]

/-- The epochs of the parents are not written. -/
lemma body_inEpoch (e : EventHeaderData) (emptyTxHash : HashBytes) :
    e.inEpoch.body emptyTxHash = e.body emptyTxHash := by
  have hparents := e.parentBytes_inEpoch
  simp only [body, hparents, fields32, fields64]
  simp [inEpoch]

lemma Headers.congr {e e' : EventHeaderData}
    {header3 header2 : List UInt8}
    (h : e.Headers emptyTxHash header3 header2) (h64 : e'.fields64 = e.fields64)
    (h32 : e'.fields32 = e.fields32)
    (hbool : e'.fieldsBool emptyTxHash = e.fieldsBool emptyTxHash) :
    e'.Headers emptyTxHash header3 header2 := by
  apply Headers.mk h.length3 h.length2
  · rw [h64]
    exact h.field3
  · rw [h32, hbool]
    exact h.field2

lemma unmarshalBinary_of_marshalBinary {raw : List UInt8} (hcount : e.parents.length < 2 ^ 32)
    (hraw : e.marshalBinary emptyTxHash = .ok raw) :
    Lachesis.unmarshalBinary emptyTxHash ⟨raw, []⟩ = .ok e.inEpoch := by
  obtain ⟨header3, header2, hh, hrun⟩ := e.marshalBinary_ok emptyTxHash
  obtain rfl := Except.ok.inj (hraw.symm.trans hrun)
  rw [← e.body_inEpoch]
  have h32 : e.inEpoch.fields32 = e.fields32 := by simp [fields32, inEpoch]
  have hheaders : e.inEpoch.Headers emptyTxHash header3 header2 := hh.congr rfl h32 rfl
  refine unmarshalBinary_eq_ok_iff.mpr ⟨header3, header2, _, _, hheaders.layout ?_ ?_⟩
  · simpa [inEpoch] using hcount
  · intro p hp
    obtain ⟨q, -, rfl⟩ := List.mem_map.mp hp
    exact List.take_left' (length_epochBytes e.epoch)

/-- Every cut of the bytes of a header before its extra data is an error, in any receiver. -/
def RejectsCuts (emptyTxHash : HashBytes) (h : EventHeaderData) : Prop :=
  ∃ raw, h.marshalBinary emptyTxHash = .ok raw ∧ ∀ n < raw.length - h.extra.length,
    ∀ e : EventHeaderData, ∃ err, e.unmarshalBinary emptyTxHash ⟨raw.take n, []⟩ = .error err

lemma rejectsCuts_of_length_lt (emptyTxHash : HashBytes) {h : EventHeaderData}
    (hcount : h.parents.length < 2 ^ 32) : h.RejectsCuts emptyTxHash := by
  obtain ⟨header3, header2, -, hrun⟩ := h.marshalBinary_ok emptyTxHash
  refine ⟨_, hrun, ?_⟩
  have hfull := unmarshalBinary_of_marshalBinary hcount hrun
  generalize header3 ++ header2 ++ h.body emptyTxHash = raw at hfull ⊢
  intro n hn e
  rw [e.unmarshalBinary_eq]
  cases hcut : Lachesis.unmarshalBinary emptyTxHash ⟨raw.take n, []⟩ with
  | error err => exact ⟨err, rfl⟩
  | ok d =>
    -- with the bytes that were cut off the extra data would be longer than it is
    have happend := unmarshalBinary_append hcut (raw.drop n)
    rw [List.take_append_drop, hfull, Except.ok.injEq] at happend
    have hextra : h.extra = d.extra ++ raw.drop n := congrArg EventHeaderData.extra happend
    have hlen : h.extra.length = d.extra.length + (raw.length - n) := by
      rw [hextra, List.length_append, List.length_drop]
    omega

variable (emptyTxHash)

/-- A header with `m` equal parents and nothing else that takes space. -/
def manyParents (m : ℕ) : EventHeaderData :=
  { Codec.header with parents := List.replicate m .zero, txHash := emptyTxHash }

@[simp] lemma parents_manyParents (m : ℕ) :
    (manyParents emptyTxHash m).parents = List.replicate m .zero := rfl

lemma body_manyParents_add (k l : ℕ)
    (h32 : (manyParents emptyTxHash (k + l)).fields32 = (manyParents emptyTxHash k).fields32) :
    (manyParents emptyTxHash (k + l)).body emptyTxHash =
      (manyParents emptyTxHash k).body emptyTxHash ++ parentBytes (List.replicate l .zero) := by
  have hfields : (manyParents emptyTxHash (k + l)).fields64 =
      (manyParents emptyTxHash k).fields64 := rfl
  have hparents : parentBytes (List.replicate (k + l) .zero) =
      parentBytes (List.replicate k .zero) ++ parentBytes (List.replicate l .zero) := by
    rw [parentBytes, List.replicate_add, List.flatMap_append]
    rfl
  rw [body, body, h32, hfields, parents_manyParents, hparents]
  simp [manyParents, encodedHash, Codec.header]

/-- The number of parents is written modulo `2 ^ 32`, so that the bytes of the first parents are a
header of their own. -/
lemma not_rejectsCuts_manyParents {m : ℕ} (hm : 2 ^ 32 ≤ m) :
    ¬ (manyParents emptyTxHash m).RejectsCuts emptyTxHash := by
  obtain ⟨k, l, rfl, hk, hl, hcast⟩ : ∃ k l, m = k + l ∧ k < 2 ^ 32 ∧ 0 < l ∧
      UInt32.ofNat (k + l) = UInt32.ofNat k := by
    have hmod := Nat.mod_lt m (show 2 ^ 32 > 0 by decide)
    have hsub : m % 2 ^ 32 + (m - m % 2 ^ 32) = m := by omega
    refine ⟨m % 2 ^ 32, m - m % 2 ^ 32, hsub.symm, hmod, by omega, ?_⟩
    apply UInt32.toNat.inj
    rw [hsub, UInt32.toNat_ofNat', UInt32.toNat_ofNat', Nat.mod_mod]
  have h32 : (manyParents emptyTxHash (k + l)).fields32 =
      (manyParents emptyTxHash k).fields32 := by
    simp only [fields32, parents_manyParents, List.length_replicate, hcast]
    rfl
  rintro ⟨raw, hraw, hcuts⟩
  obtain ⟨header3, header2, hh, hrun⟩ :=
    (manyParents emptyTxHash (k + l)).marshalBinary_ok emptyTxHash
  rw [body_manyParents_add emptyTxHash k l h32, ← List.append_assoc] at hrun
  obtain rfl := Except.ok.inj (hraw.symm.trans hrun)
  have hheaders : (manyParents emptyTxHash k).Headers emptyTxHash header3 header2 :=
    hh.congr rfl h32.symm rfl
  have hepoch : ∀ p ∈ (manyParents emptyTxHash k).parents,
      p.val.take 4 = epochBytes (manyParents emptyTxHash k).epoch := by
    intro p hp
    rw [List.eq_of_mem_replicate hp]
    show HashBytes.zero.val.take 4 = epochBytes 0
    decide
  have hlayout := hheaders.layout (by simpa using hk) hepoch
  obtain ⟨err, herr⟩ := hcuts
    (header3 ++ header2 ++ (manyParents emptyTxHash k).body emptyTxHash).length
    (by
      have hextra : (manyParents emptyTxHash (k + l)).extra.length = 0 := rfl
      have hrest := length_parentBytes (List.replicate l .zero)
      rw [List.length_replicate] at hrest
      simp only [List.length_append, hextra, hrest]
      omega)
    Codec.header
  rw [List.take_left, unmarshalBinary_eq,
    unmarshalBinary_eq_ok_iff.mpr ⟨header3, header2, _, _, hlayout⟩] at herr
  cases herr

end EventHeaderData

/-- Decoding depends on nothing but the bytes exactly if the receivers have the same previous epoch's
hash or the bytes do not leave it out. Headers of `m` parents that are cut before their extra data
are rejected exactly if `m` fits into the 32 bits it is written in. -/
theorem unmarshalBinary_determined (emptyTxHash : HashBytes) :
    (∀ (raw : Slice) (e₁ e₂ : EventHeaderData),
      e₁.unmarshalBinary emptyTxHash raw = e₂.unmarshalBinary emptyTxHash raw ↔
        e₁.prevEpochHash = e₂.prevEpochHash ∨ ¬ LeavesOutPrevEpochHash emptyTxHash raw.data) ∧
    ∀ m, (∀ h : EventHeaderData, h.parents.length = m → h.RejectsCuts emptyTxHash) ↔
      m < 2 ^ 32 := by
  refine ⟨unmarshalBinary_congr_iff emptyTxHash, fun m => ⟨fun h => ?_, fun hm h hlen => ?_⟩⟩
  · by_contra hm
    exact EventHeaderData.not_rejectsCuts_manyParents emptyTxHash (Nat.le_of_not_lt hm)
      (h _ List.length_replicate)
  · exact EventHeaderData.rejectsCuts_of_length_lt emptyTxHash (hlen ▸ hm)

/-- A header of a new epoch that is decoded into the variable of an older one with a previous epoch
gets the hash of that one. -/
theorem not_unmarshalBinary_determined_used :
    ∃ used : EventHeaderData,
      Codec.header.marshalBinary Codec.emptyTxHash = .ok Codec.raw ∧
      (Codec.header.unmarshalBinary Codec.emptyTxHash ⟨Codec.raw, []⟩).toOption =
        some Codec.header ∧
      (used.unmarshalBinary Codec.emptyTxHash ⟨Codec.raw, []⟩).toOption =
        some { Codec.header with prevEpochHash := Codec.emptyTxHash } := by
  refine ⟨{ Codec.header with prevEpochHash := Codec.emptyTxHash }, ?_, ?_, ?_⟩ <;> decide +kernel

end Lachesis
