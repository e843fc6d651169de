import Mathlib.Algebra.Group.Nat.Basic
import Mathlib.Data.List.Basic

/-!
# The index entries of the freezer tables (`core/rawdb`)

A freezer table's index file is a sequence of six-byte entries: the number of
the data file as a big-endian `uint16`, then the offset in that file as a
big-endian `uint32`.

```go
func (i *indexEntry) unmarshalBinary(b []byte) {
	i.filenum = uint32(binary.BigEndian.Uint16(b[:2]))
	i.offset = binary.BigEndian.Uint32(b[2:6])
}

func (i *indexEntry) append(b []byte) []byte {
	offset := len(b)
	out := append(b, make([]byte, indexEntrySize)...)
	binary.BigEndian.PutUint16(out[offset:], uint16(i.filenum))
	binary.BigEndian.PutUint32(out[offset+2:], i.offset)
	return out
}
```

The `encoding/binary` functions are transcribed as the standard library writes
them, over `UInt8`, `UInt16` and `UInt32`, and read through `toNat`.  The
result, `indexEntry_roundTrip`, is the round trip both ways: an entry whose
file number fits in 16 bits survives `append` then `unmarshalBinary`, and six
bytes survive `unmarshalBinary` then `append`.  Over a whole index buffer,
`appendEntries_slots`: after any number of appends every six-byte slot still
reads back the entry written into it.

## Honest boundary

* A `[]byte` is the list of its bytes, its capacity being its length: Go's
  `b[2:6]` may reslice past `len(b)` up to `cap(b)`, which the model does not
  have, so `unmarshalBinary` of fewer than six bytes is a panic (`none`).
* `PutUint16` on a slice too short panics; `List.set` past the end does
  nothing.  Every write `append` makes is in range.
* `bounds` reads two entries' fields and nothing of their encoding; it is left
  out.
* The freezer table that calls `append` in a loop and reads slots back is not
  part of the sources; `appendEntries` is any sequence of `append` calls.
-/

namespace EthEmu.Rawdb

/-! ## `encoding/binary.BigEndian` -/

/-- `binary.BigEndian.Uint16(b)`: `uint16(b[1]) | uint16(b[0])<<8`. -/
def uint16 (b0 b1 : UInt8) : UInt16 := b1.toUInt16 ||| b0.toUInt16 <<< 8

/-- `binary.BigEndian.Uint32(b)`:
`uint32(b[3]) | uint32(b[2])<<8 | uint32(b[1])<<16 | uint32(b[0])<<24`. -/
def uint32 (b0 b1 b2 b3 : UInt8) : UInt32 :=
  b3.toUInt32 ||| b2.toUInt32 <<< 8 ||| b1.toUInt32 <<< 16 ||| b0.toUInt32 <<< 24

/-- `binary.BigEndian.PutUint16(b[i:], v)`: `b[i] = byte(v >> 8)`, `b[i+1] = byte(v)`. -/
def putUint16 (b : List UInt8) (i : Nat) (v : UInt16) : List UInt8 :=
  (b.set i (v >>> 8).toUInt8).set (i + 1) v.toUInt8

/-- `binary.BigEndian.PutUint32(b[i:], v)`: the bytes of `v`, most significant first. -/
def putUint32 (b : List UInt8) (i : Nat) (v : UInt32) : List UInt8 :=
  (((b.set i (v >>> 24).toUInt8).set (i + 1) (v >>> 16).toUInt8).set (i + 2)
    (v >>> 8).toUInt8).set (i + 3) v.toUInt8

/-! ### Reading the conversions through `toNat` -/

theorem toNat_shiftRight16 (v k : UInt16) : (v >>> k).toNat = v.toNat >>> (k.toNat % 16) := rfl

theorem toNat_shiftRight32 (v k : UInt32) : (v >>> k).toNat = v.toNat >>> (k.toNat % 32) := rfl

theorem toNat_shiftLeft16 (v k : UInt16) :
    (v <<< k).toNat = v.toNat <<< (k.toNat % 16) % 2 ^ 16 :=
  show (v.toBitVec <<< (k.toBitVec % 16)).toNat = _ from rfl

theorem toNat_shiftLeft32 (v k : UInt32) :
    (v <<< k).toNat = v.toNat <<< (k.toNat % 32) % 2 ^ 32 :=
  show (v.toBitVec <<< (k.toBitVec % 32)).toNat = _ from rfl

theorem toNat_or16 (x y : UInt16) : (x ||| y).toNat = x.toNat ||| y.toNat := BitVec.toNat_or _ _

theorem toNat_or32 (x y : UInt32) : (x ||| y).toNat = x.toNat ||| y.toNat := BitVec.toNat_or _ _

/-- Bytes above the low `i` bits: `or` is `+`. -/
theorem or_mul_two_pow {a b i : Nat} (hb : b < 2 ^ i) : b ||| a * 2 ^ i = a * 2 ^ i + b := by
  rw [Nat.or_comm, Nat.mul_comm, Nat.mul_add_lt_is_or hb]

/-- `byte(v >> 8)` is the high byte. -/
theorem toNat_hiByte16 (v : UInt16) : (v >>> 8).toUInt8.toNat = v.toNat / 2 ^ 8 := by
  have : v.toNat < 2 ^ 16 := v.toNat_lt_size
  show (v.toNat >>> 8) % 256 = _
  rw [Nat.shiftRight_eq_div_pow]
  omega

/-- `byte(v >> k)` is the byte of `v` at bit `k`. -/
theorem toNat_byte32 (v : UInt32) (k : Nat) (hk : k < 32) :
    (v >>> UInt32.ofNat k).toUInt8.toNat = v.toNat / 2 ^ k % 256 := by
  show (v >>> UInt32.ofNat k).toNat % 256 = _
  rw [toNat_shiftRight32, Nat.shiftRight_eq_div_pow]
  congr 3
  show k % 2 ^ 32 % 32 = k
  omega

theorem toNat_uint16 (b0 b1 : UInt8) : (uint16 b0 b1).toNat = b0.toNat * 2 ^ 8 + b1.toNat := by
  have h0 : b0.toNat < 2 ^ 8 := b0.toNat_lt_size
  have h1 : b1.toNat < 2 ^ 8 := b1.toNat_lt_size
  show b1.toNat ||| b0.toNat <<< 8 % 2 ^ 16 = _
  rw [Nat.shiftLeft_eq, Nat.mod_eq_of_lt (by omega), or_mul_two_pow h1]

theorem toNat_uint32 (b0 b1 b2 b3 : UInt8) :
    (uint32 b0 b1 b2 b3).toNat = b0.toNat * 2 ^ 24 + b1.toNat * 2 ^ 16 + b2.toNat * 2 ^ 8 + b3.toNat := by
  have h0 : b0.toNat < 2 ^ 8 := b0.toNat_lt_size
  have h1 : b1.toNat < 2 ^ 8 := b1.toNat_lt_size
  have h2 : b2.toNat < 2 ^ 8 := b2.toNat_lt_size
  have h3 : b3.toNat < 2 ^ 8 := b3.toNat_lt_size
  show ((b3.toNat ||| b2.toNat <<< 8 % 2 ^ 32) ||| b1.toNat <<< 16 % 2 ^ 32) |||
    b0.toNat <<< 24 % 2 ^ 32 = _
  have e2 : b2.toNat * 2 ^ 8 % 2 ^ 32 = b2.toNat * 2 ^ 8 := Nat.mod_eq_of_lt (by omega)
  have e1 : b1.toNat * 2 ^ 16 % 2 ^ 32 = b1.toNat * 2 ^ 16 := Nat.mod_eq_of_lt (by omega)
  have e0 : b0.toNat * 2 ^ 24 % 2 ^ 32 = b0.toNat * 2 ^ 24 := Nat.mod_eq_of_lt (by omega)
  simp only [Nat.shiftLeft_eq]
  rw [e2, e1, e0, or_mul_two_pow h3, or_mul_two_pow (a := b1.toNat) (by omega),
    or_mul_two_pow (a := b0.toNat) (by omega)]
  omega

/-! ### The round trips of the byte orders -/

/-- `Uint16` reads back what `PutUint16` wrote. -/
theorem uint16_bytes (v : UInt16) : uint16 (v >>> 8).toUInt8 v.toUInt8 = v := by
  have : v.toNat < 2 ^ 16 := v.toNat_lt_size
  have hlo : v.toUInt8.toNat = v.toNat % 2 ^ 8 := rfl
  apply UInt16.toNat.inj
  rw [toNat_uint16, toNat_hiByte16, hlo]
  omega

/-- `PutUint16` writes back the two bytes `Uint16` read. -/
theorem bytes_uint16 (b0 b1 : UInt8) :
    (uint16 b0 b1 >>> 8).toUInt8 = b0 ∧ (uint16 b0 b1).toUInt8 = b1 := by
  have h0 : b0.toNat < 2 ^ 8 := b0.toNat_lt_size
  have h1 : b1.toNat < 2 ^ 8 := b1.toNat_lt_size
  have hlo : (uint16 b0 b1).toUInt8.toNat = (uint16 b0 b1).toNat % 2 ^ 8 := rfl
  refine ⟨UInt8.toNat.inj ?_, UInt8.toNat.inj ?_⟩
  · rw [toNat_hiByte16, toNat_uint16]; omega
  · rw [hlo, toNat_uint16]; omega

/-- `Uint32` reads back what `PutUint32` wrote. -/
theorem uint32_bytes (v : UInt32) :
    uint32 (v >>> 24).toUInt8 (v >>> 16).toUInt8 (v >>> 8).toUInt8 v.toUInt8 = v := by
  have : v.toNat < 2 ^ 32 := v.toNat_lt_size
  have h24 : (v >>> 24).toUInt8.toNat = v.toNat / 2 ^ 24 % 256 := toNat_byte32 v 24 (by omega)
  have h16 : (v >>> 16).toUInt8.toNat = v.toNat / 2 ^ 16 % 256 := toNat_byte32 v 16 (by omega)
  have h8 : (v >>> 8).toUInt8.toNat = v.toNat / 2 ^ 8 % 256 := toNat_byte32 v 8 (by omega)
  have h0 : v.toUInt8.toNat = v.toNat % 2 ^ 8 := rfl
  apply UInt32.toNat.inj
  rw [toNat_uint32, h24, h16, h8, h0]
  omega

/-- `PutUint32` writes back the four bytes `Uint32` read. -/
theorem bytes_uint32 (b0 b1 b2 b3 : UInt8) :
    (uint32 b0 b1 b2 b3 >>> 24).toUInt8 = b0 ∧ (uint32 b0 b1 b2 b3 >>> 16).toUInt8 = b1 ∧
      (uint32 b0 b1 b2 b3 >>> 8).toUInt8 = b2 ∧ (uint32 b0 b1 b2 b3).toUInt8 = b3 := by
  have h0 : b0.toNat < 2 ^ 8 := b0.toNat_lt_size
  have h1 : b1.toNat < 2 ^ 8 := b1.toNat_lt_size
  have h2 : b2.toNat < 2 ^ 8 := b2.toNat_lt_size
  have h3 : b3.toNat < 2 ^ 8 := b3.toNat_lt_size
  have hv := toNat_uint32 b0 b1 b2 b3
  have hlo : (uint32 b0 b1 b2 b3).toUInt8.toNat = (uint32 b0 b1 b2 b3).toNat % 2 ^ 8 := rfl
  have h24 : (uint32 b0 b1 b2 b3 >>> 24).toUInt8.toNat = (uint32 b0 b1 b2 b3).toNat / 2 ^ 24 % 256 :=
    toNat_byte32 _ 24 (by omega)
  have h16 : (uint32 b0 b1 b2 b3 >>> 16).toUInt8.toNat = (uint32 b0 b1 b2 b3).toNat / 2 ^ 16 % 256 :=
    toNat_byte32 _ 16 (by omega)
  have h8 : (uint32 b0 b1 b2 b3 >>> 8).toUInt8.toNat = (uint32 b0 b1 b2 b3).toNat / 2 ^ 8 % 256 :=
    toNat_byte32 _ 8 (by omega)
  refine ⟨UInt8.toNat.inj ?_, UInt8.toNat.inj ?_, UInt8.toNat.inj ?_, UInt8.toNat.inj ?_⟩
  · rw [h24, hv]; omega
  · rw [h16, hv]; omega
  · rw [h8, hv]; omega
  · rw [hlo, hv]; omega

/-! ## `indexEntry` -/

/-- `indexEntry`: the number of the data file holding an item, and the offset in
that file to the end of the item. -/
structure IndexEntry where
  filenum : UInt32
  offset : UInt32
deriving DecidableEq, Repr

/-- `indexEntrySize`. -/
def indexEntrySize : Nat := 6

/-- `(*indexEntry).unmarshalBinary`: both fields are overwritten, so the entry it
leaves is a function of the bytes alone; fewer than six bytes panic. -/
def IndexEntry.unmarshalBinary : List UInt8 → Option IndexEntry
  | b0 :: b1 :: b2 :: b3 :: b4 :: b5 :: _ => some ⟨(uint16 b0 b1).toUInt32, uint32 b2 b3 b4 b5⟩
  | _ => none

/-- `(*indexEntry).append`: six zero bytes appended to `b`, then the file number
as a `uint16` and the offset written over them. -/
def IndexEntry.append (e : IndexEntry) (b : List UInt8) : List UInt8 :=
  let out := b ++ List.replicate indexEntrySize 0
  putUint32 (putUint16 out b.length e.filenum.toUInt16) (b.length + 2) e.offset

/-- What `append` adds: the big-endian bytes of `uint16(filenum)` and of `offset`. -/
theorem IndexEntry.append_eq (e : IndexEntry) (b : List UInt8) :
    e.append b = b ++ [(e.filenum.toUInt16 >>> 8).toUInt8, e.filenum.toUInt16.toUInt8,
      (e.offset >>> 24).toUInt8, (e.offset >>> 16).toUInt8, (e.offset >>> 8).toUInt8,
      e.offset.toUInt8] := by
  simp (disch := omega) [IndexEntry.append, putUint16, putUint32, List.set_append_right, indexEntrySize,
    Nat.add_assoc]

/-- A file number below `2^16` survives the `uint16` conversion and back. -/
theorem toUInt32_toUInt16 {f : UInt32} (h : f.toNat < 2 ^ 16) : f.toUInt16.toUInt32 = f :=
  UInt32.toNat.inj (show f.toNat % 2 ^ 16 = f.toNat from Nat.mod_eq_of_lt h)

/-- **The round trips of the index entry.**  `append` adds exactly six bytes, from
which `unmarshalBinary` reads the entry back when its file number fits in
16 bits; and six bytes read by `unmarshalBinary` give an entry whose file number
fits in 16 bits and which `append` writes back as the same six bytes. -/
theorem indexEntry_roundTrip :
    (∀ (b : List UInt8) (e : IndexEntry), e.filenum.toNat < 2 ^ 16 →
      ∃ s, e.append b = b ++ s ∧ s.length = indexEntrySize ∧ IndexEntry.unmarshalBinary s = some e) ∧
    ∀ s : List UInt8, s.length = indexEntrySize →
      ∃ e, IndexEntry.unmarshalBinary s = some e ∧ e.filenum.toNat < 2 ^ 16 ∧ e.append [] = s := by
  refine ⟨fun b e h ↦ ⟨_, e.append_eq b, rfl, ?_⟩, fun s hs ↦ ?_⟩
  · simp only [IndexEntry.unmarshalBinary, uint16_bytes, uint32_bytes, toUInt32_toUInt16 h]
  · match s, hs with
    | [b0, b1, b2, b3, b4, b5], _ =>
      refine ⟨_, rfl, (uint16 b0 b1).toNat_lt_size, ?_⟩
      obtain ⟨h0, h1⟩ := bytes_uint16 b0 b1
      obtain ⟨h2, h3, h4, h5⟩ := bytes_uint32 b2 b3 b4 b5
      have hf : (uint16 b0 b1).toUInt32.toUInt16 = uint16 b0 b1 :=
        UInt16.toNat.inj (Nat.mod_eq_of_lt (uint16 b0 b1).toNat_lt_size)
      rw [IndexEntry.append_eq, hf, h0, h1, h2, h3, h4, h5]
      rfl

theorem indexEntry_roundTrip_example :
    (∃ s, (IndexEntry.mk 1 0x01020304).append [9] = [9] ++ s ∧ s.length = indexEntrySize ∧
      IndexEntry.unmarshalBinary s = some (IndexEntry.mk 1 0x01020304)) ∧
    ∃ e, IndexEntry.unmarshalBinary [0, 1, 1, 2, 3, 4] = some e ∧ e.filenum.toNat < 2 ^ 16 ∧
      e.append [] = [0, 1, 1, 2, 3, 4] :=
  ⟨indexEntry_roundTrip.1 [9] ⟨1, 0x01020304⟩ (by decide), indexEntry_roundTrip.2 _ rfl⟩

/-! ## An index buffer of successive entries

The freezer appends the entry of each new item to its index buffer with
`append`, one after another, and reads item `k`'s entry from byte
`indexEntrySize * k` with `unmarshalBinary`.  An append leaves the bytes before
it as they were, so every slot keeps the entry written into it. -/

/-- The index buffer after `append` of each of `es` in turn, starting from `b`. -/
def appendEntries (b : List UInt8) (es : List IndexEntry) : List UInt8 :=
  es.foldl (fun acc e ↦ e.append acc) b

/-- The six bytes `append` writes for `e`. -/
def IndexEntry.encoded (e : IndexEntry) : List UInt8 := e.append []

theorem IndexEntry.append_eq_encoded (e : IndexEntry) (b : List UInt8) :
    e.append b = b ++ e.encoded := by
  rw [encoded, append_eq, append_eq, List.nil_append]

theorem IndexEntry.length_encoded (e : IndexEntry) : e.encoded.length = indexEntrySize := by
  rw [encoded, append_eq]; rfl

/-- `unmarshalBinary` reads an entry back from the front of any buffer that starts
with its six bytes. -/
theorem IndexEntry.unmarshalBinary_encoded_append {e : IndexEntry} (h : e.filenum.toNat < 2 ^ 16)
    (r : List UInt8) : unmarshalBinary (e.encoded ++ r) = some e := by
  simp only [encoded, append_eq, List.nil_append, List.cons_append, unmarshalBinary,
    uint16_bytes, uint32_bytes, toUInt32_toUInt16 h]

/-- Successive appends add the entries' bytes one after another. -/
theorem appendEntries_eq (b : List UInt8) (es : List IndexEntry) :
    appendEntries b es = b ++ es.flatMap IndexEntry.encoded := by
  induction es generalizing b with
  | nil => simp [appendEntries]
  | cons e es ih =>
    show appendEntries (e.append b) es = _
    rw [ih, e.append_eq_encoded, List.flatMap_cons, List.append_assoc]

/-- Each entry takes six bytes of the buffer. -/
theorem length_flatMap_encoded (es : List IndexEntry) :
    (es.flatMap IndexEntry.encoded).length = indexEntrySize * es.length := by
  induction es with
  | nil => rfl
  | cons e es ih =>
    rw [List.flatMap_cons, List.length_append, ih, e.length_encoded, List.length_cons, Nat.mul_succ,
      Nat.add_comm]

/-- Past the first `k` entries' bytes stand the bytes of the others. -/
theorem drop_flatMap_encoded : ∀ (es : List IndexEntry) (k : Nat),
    (es.flatMap IndexEntry.encoded).drop (indexEntrySize * k) = (es.drop k).flatMap IndexEntry.encoded
  | [], _ => by simp
  | _ :: _, 0 => rfl
  | e :: es, k + 1 => by
    rw [List.flatMap_cons, Nat.mul_succ, Nat.add_comm, ← List.drop_drop, ← e.length_encoded,
      List.drop_left, e.length_encoded, drop_flatMap_encoded es k, List.drop_succ_cons]

/-- **Every slot of an index buffer reads back.**  Appending entries whose file
numbers fit in 16 bits one after another to any buffer `b` keeps `b` in front,
adds six bytes per entry, and `unmarshalBinary` at byte
`len(b) + indexEntrySize * k` reads the `k`-th entry appended. -/
theorem appendEntries_slots (b : List UInt8) (es : List IndexEntry)
    (h : ∀ e ∈ es, e.filenum.toNat < 2 ^ 16) :
    (appendEntries b es).take b.length = b ∧
      (appendEntries b es).length = b.length + indexEntrySize * es.length ∧
      ∀ k (hk : k < es.length), IndexEntry.unmarshalBinary
        ((appendEntries b es).drop (b.length + indexEntrySize * k)) = some es[k] := by
  rw [appendEntries_eq]
  refine ⟨List.take_left' rfl, ?_, fun k hk ↦ ?_⟩
  · rw [List.length_append, length_flatMap_encoded]
  · rw [← List.drop_drop, List.drop_left, drop_flatMap_encoded, List.drop_eq_getElem_cons hk,
      List.flatMap_cons, IndexEntry.unmarshalBinary_encoded_append (h _ (List.getElem_mem hk))]

theorem appendEntries_slots_two :
    (∀ e ∈ [IndexEntry.mk 0 6, IndexEntry.mk 1 2], e.filenum.toNat < 2 ^ 16) ∧
      IndexEntry.unmarshalBinary ((appendEntries [] [⟨0, 6⟩, ⟨1, 2⟩]).drop (0 + indexEntrySize * 1)) =
        some ⟨1, 2⟩ :=
  ⟨by decide, (appendEntries_slots [] [⟨0, 6⟩, ⟨1, 2⟩] (by decide)).2.2 1 (by decide)⟩

end EthEmu.Rawdb
