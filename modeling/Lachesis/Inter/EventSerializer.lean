import Lachesis.Utils.Fast

/-!
# The event codec

`MarshalBinary` writes an event header as two bit arrays with the sizes of its numbers, the numbers
without the zeros at their ends, the parents without their epoch, the two hashes unless they have
their usual values, and the extra data. `UnmarshalBinary` reads it back; a panic is an error there.
-/

namespace Lachesis

open Lachesis.Core Fast

/-! ### Hashes -/

/-- `common.Hash`, `hash.Event`: 32 bytes. -/
abbrev HashBytes := {bs : List UInt8 // bs.length = 32}

namespace HashBytes

/-- `hash.Zero` -/
def zero : HashBytes := ⟨List.replicate 32 0, rfl⟩

/-- `Hash.SetBytes`: the last 32 bytes, filled up with zeros from the left. -/
def setBytes (b : List UInt8) : HashBytes :=
  ⟨List.replicate (32 - b.length) 0 ++ b.drop (b.length - 32), by simp; omega⟩

/-- The copy of bytes into a hash at an offset. -/
def copyAt (h : HashBytes) (offset : ℕ) (src : List UInt8) : HashBytes :=
  ⟨(h.val.take offset ++ src.take (32 - offset) ++ h.val.drop (offset + src.length)), by
    have := h.property
    simp
    omega⟩

lemma setBytes_eq {b : List UInt8} (h : b.length = 32) : setBytes b = ⟨b, h⟩ := by
  simp [setBytes, h]

lemma copyAt_copyAt {a b : List UInt8} (ha : a.length = 4) (hb : b.length = 28) :
    (zero.copyAt 0 a).copyAt 4 b = ⟨a ++ b, by simp [ha, hb]⟩ := by
  apply Subtype.ext
  simp [copyAt, zero, ha, hb, List.take_of_length_le]

end HashBytes

/-! ### Headers -/

/-- `inter.EventHeaderData` -/
@[ext]
structure EventHeaderData where
  version : UInt32
  epoch : UInt32
  seq : UInt32
  frame : UInt32
  isRoot : Bool
  creator : UInt32
  prevEpochHash : HashBytes
  parents : List HashBytes
  gasPowerLeft : UInt64 × UInt64
  gasPowerUsed : UInt64
  lamport : UInt32
  claimedTime : UInt64
  medianTime : UInt64
  txHash : HashBytes
  extra : List UInt8
  deriving DecidableEq

/-- `Epoch.Bytes`: four bytes, most significant first. -/
def epochBytes (epoch : UInt32) : List UInt8 := (leBytes 4 epoch.toNat).reverse

namespace EventHeaderData

/-- `fields64` of `MarshalBinary` -/
def fields64 (e : EventHeaderData) : List UInt64 :=
  [e.gasPowerLeft.1, e.gasPowerLeft.2, e.gasPowerUsed, e.claimedTime, e.medianTime]

/-- `fields32` of `MarshalBinary` -/
def fields32 (e : EventHeaderData) : List UInt32 :=
  [e.version, e.epoch, e.seq, e.frame, e.creator, e.lamport, UInt32.ofNat e.parents.length]

/-- `fieldsBool` of `MarshalBinary`; the hash of no transactions is given. -/
def fieldsBool (emptyTxHash : HashBytes) (e : EventHeaderData) : List Bool :=
  [e.isRoot, e.prevEpochHash = HashBytes.zero, e.txHash = emptyTxHash]

end EventHeaderData

/-! ### Writing -/

/-- `writeUintCompact`: the number of bytes written. -/
def writeUintCompact (buf : Buffer) (v : UInt64) : (size : ℕ) → Except Panic (ℕ × Buffer)
  | 0 => .ok (0, buf)
  | size + 1 => do
    let buf ← buf.writeByte v.toUInt8
    if v >>> 8 = 0 then return (1, buf)
    else
      let (bytes, buf) ← writeUintCompact buf (v >>> 8) size
      return (bytes + 1, buf)

/-- The loops over the numbers in `MarshalBinary`. -/
def writeUints (size : ℕ) : List UInt64 → BitArrayWriter → Buffer →
    Except Panic (BitArrayWriter × Buffer)
  | [], header, buf => .ok (header, buf)
  | i :: rest, header, buf => do
    let (n, buf) ← writeUintCompact buf i size
    let header ← header.push ((n : ℤ) - 1)
    writeUints size rest header buf

/-- The loop over the flags in `MarshalBinary`. -/
def writeBools (header : BitArrayWriter) (flags : List Bool) : Except Panic BitArrayWriter :=
  flags.foldlM (fun header f => header.push (if f then 1 else 0)) header

/-- A hash is written unless it has the value `dflt`. -/
def writeHash (dflt h : HashBytes) (buf : Buffer) : Except Panic Buffer :=
  if h = dflt then .ok buf else buf.write h.val

/-- `EventHeaderData.MarshalBinary`. The writers share one array, of which each has its own part. -/
def EventHeaderData.marshalBinary (emptyTxHash : HashBytes) (e : EventHeaderData) :
    Except Panic (List UInt8) := do
  let fieldsBool := e.fieldsBool emptyTxHash
  let header3 ← newBitArray 4 e.fields64.length
  let header2 ← newBitArray 2 (e.fields32.length + fieldsBool.length)
  let maxBytes := header3.size + header2.size + e.fields64.length * 8 + e.fields32.length * 4 +
    e.parents.length * (32 - 4) + 32 + 32 + e.extra.length
  let raw := List.replicate maxBytes 0
  let header3w ← header3.writer (raw.take header3.size)
  let header2w ← header2.writer ((raw.drop header3.size).take header2.size)
  let buf := newBuffer ⟨raw.drop (header3.size + header2.size), []⟩
  let (header3w, buf) ← writeUints 8 e.fields64 header3w buf
  let (header2w, buf) ← writeUints 4 (e.fields32.map UInt32.toUInt64) header2w buf
  let header2w ← writeBools header2w fieldsBool
  let buf ← e.parents.foldlM (fun buf p => buf.write (p.val.drop 4)) buf
  let buf ← writeHash .zero e.prevEpochHash buf
  let buf ← writeHash emptyTxHash e.txHash buf
  let buf ← buf.write e.extra
  let length := header3.size + header2.size + buf.position
  return (header3w.raw ++ header2w.raw ++ buf.buf.data).take length

/-! ### Reading -/

/-- The errors of `UnmarshalBinary`. -/
inductive SerializerErr
  /-- `Non canonical encoded event` -/
  | nonCanonicalEncoding
  /-- `Invalid encoded event`: a panic that was recovered. -/
  | invalidEncoding
  deriving DecidableEq, Repr

/-- The deferred `recover` of `UnmarshalBinary`. -/
def recovered {α : Type} (m : Except Panic α) : Except SerializerErr α :=
  m.mapError fun _ => .invalidEncoding

/-- The loop of `readUintCompact`: the sum, and the last byte. -/
def sumBytes (bs : List UInt8) : UInt64 × UInt8 :=
  bs.zipIdx.foldl (fun (v, _) (b, i) => (v + UInt64.ofNat (b.toNat <<< (8 * i)), b)) (0, 0)

def readUintCompact (buf : Buffer) (bytes : ℕ) : Except SerializerErr (UInt64 × Buffer) := do
  let (bs, buf) ← recovered (buf.read bytes)
  let (v, last) := sumBytes bs
  if 1 < bytes ∧ last = 0 then .error .nonCanonicalEncoding else .ok (v, buf)

/-- The loops over the numbers in `UnmarshalBinary`. -/
def readUints : (count : ℕ) → BitArrayReader → Buffer →
    Except SerializerErr (List UInt64 × BitArrayReader × Buffer)
  | 0, header, buf => .ok ([], header, buf)
  | count + 1, header, buf => do
    let (n, header) ← recovered header.pop
    let (x, buf) ← readUintCompact buf (n + 1)
    let (xs, header, buf) ← readUints count header buf
    return (x :: xs, header, buf)

/-- The loop over the flags in `UnmarshalBinary`. -/
def readBools : (count : ℕ) → BitArrayReader → Except SerializerErr (List Bool)
  | 0, _ => .ok []
  | count + 1, header => do
    let (n, header) ← recovered header.pop
    return (n ≠ 0) :: (← readBools count header)

/-- The loop over the parents in `UnmarshalBinary`. -/
def readParents (epoch : UInt32) : (count : ℕ) → Buffer →
    Except SerializerErr (List HashBytes × Buffer)
  | 0, buf => .ok ([], buf)
  | count + 1, buf => do
    let (bs, buf) ← recovered (buf.read (32 - 4))
    let (ps, buf) ← readParents epoch count buf
    return ((HashBytes.zero.copyAt 0 (epochBytes epoch)).copyAt 4 bs :: ps, buf)

/-- A hash that is left out if it has the value `dflt`, and must not have it otherwise. -/
def readHash (dflt : HashBytes) (isEmpty : Bool) (buf : Buffer) :
    Except SerializerErr (HashBytes × Buffer) :=
  if isEmpty then .ok (dflt, buf)
  else do
    let (bs, buf) ← recovered (buf.read 32)
    if HashBytes.setBytes bs = dflt then .error .nonCanonicalEncoding
    else .ok (HashBytes.setBytes bs, buf)

/-- `UnmarshalBinary` from where the numbers and flags are read, in a buffer of `size` bytes. -/
def unmarshalRest (emptyTxHash : HashBytes) (size : ℕ) (buf : Buffer) :
    List UInt64 → List UInt32 → List Bool → Except SerializerErr EventHeaderData
  | [gas0, gas1, gasPowerUsed, claimedTime, medianTime],
    [version, epoch, seq, frame, creator, lamport, parentCount],
    [isRoot, isPrevEpochHashEmpty, isTxHashEmpty] => do
    let (parents, buf) ← readParents epoch parentCount.toNat buf
    let (prevEpochHash, buf) ← readHash .zero isPrevEpochHashEmpty buf
    let (txHash, buf) ← readHash emptyTxHash isTxHashEmpty buf
    let (extra, _) ← recovered (buf.read (size - buf.position))
    return { version, epoch, seq, frame, isRoot, creator, prevEpochHash, parents,
             gasPowerLeft := (gas0, gas1), gasPowerUsed, lamport, claimedTime, medianTime,
             txHash, extra }
  -- every loop gives as many values as it was asked for
  | _, _, _ => .error .invalidEncoding

/-- `UnmarshalBinary` up to the allocation of the parents: what is behind the bit arrays, the cursor
in it, and the numbers and flags. -/
def beforeParents (raw : Slice) :
    Except SerializerErr (Slice × Buffer × List UInt64 × List UInt32 × List Bool) := do
  let header3 ← recovered (newBitArray 4 5)
  let header2 ← recovered (newBitArray 2 (7 + 3))
  let offset := header3.size
  let header3r ← recovered (do header3.reader (← raw.sub 0 offset))
  let header2r ← recovered (do header2.reader (← raw.sub offset (offset + header2.size : ℕ)))
  let raw ← recovered (raw.suffix (offset + header2.size))
  let (fields64, _, buf) ← readUints 5 header3r (newBuffer raw)
  let (fields32, header2r, buf) ← readUints 7 header2r buf
  let fieldsBool ← readBools 3 header2r
  return (raw, buf, fields64, fields32.map UInt64.toUInt32, fieldsBool)

/-- `EventHeaderData.UnmarshalBinary` into a fresh value. -/
def unmarshalBinary (emptyTxHash : HashBytes) (raw : Slice) :
    Except SerializerErr EventHeaderData := do
  let (raw, buf, fields64, fields32, fieldsBool) ← beforeParents raw
  unmarshalRest emptyTxHash raw.data.length buf fields64 fields32 fieldsBool

end Lachesis
