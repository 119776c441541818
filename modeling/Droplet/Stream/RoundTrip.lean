/-
What is written is read back.

Each `write` call puts some bytes at the cursor, each `read` call takes some from there;
`Writes` and `Reads` say which, and both are closed under sequencing.  A pair of calls
goes through the same bytes, and so does a list of pairs.

* `Writes.bind`, `Reads.bind` — two calls in a row;
* `reads_readVarint` — the loop that reads a varint follows the one that wrote it;
* `Kind.writes`, `Kind.reads` — each pair of calls;
* `roundTrip_of_fits` — a list of values comes back exactly when its bytes fit.
-/
import Droplet.Stream.Typed

open Splice Words Transition Transition.System

namespace Stream

variable {α β : Type} {little : Bool} {bytes more : List Byte} {s s' : ByteArray} {w : ℕ}

/-- What comes after a call that returns. -/
theorem bind_ok {x : Op α} {a : α} (f : α → Op β) (h : x s = .ok a s') :
    (x >>= f) s = f a s' := by
  show EStateM.bind x f s = _
  rw [EStateM.bind, h]

theorem bind_error {x : Op α} {e : Error} (f : α → Op β) (h : x s = .error e s') :
    (x >>= f) s = .error e s' := by
  show EStateM.bind x f s = _
  rw [EStateM.bind, h]

/-! ### Reading -/

namespace ByteArray

/-- The cursor has moved. -/
def advance (s : ByteArray) (n : ℕ) : ByteArray := { s with position := s.position + n }

/-- These bytes are behind the cursor. -/
def Ahead (s : ByteArray) (bytes : List Byte) : Prop := bytes <+: s.bytes.drop s.position

theorem Ahead.length_le (h : s.WellFormed) (hahead : s.Ahead bytes) :
    bytes.length ≤ s.size - s.position := by
  have hle := List.IsPrefix.length_le hahead
  rwa [List.length_drop, h.length_bytes] at hle

theorem WellFormed.advance (h : s.WellFormed) (hahead : s.Ahead bytes) :
    (s.advance bytes.length).WellFormed := by
  have hle := hahead.length_le h
  have hposition := h.position
  refine ⟨h.base, h.nodes, h.capacity, h.tail, ?_, h.size, h.bound⟩
  show s.position + bytes.length ≤ s.size
  omega

/-- What comes behind the bytes. -/
theorem Ahead.advance (hahead : s.Ahead (bytes ++ more)) :
    (s.advance bytes.length).Ahead more := by
  obtain ⟨rest, hrest⟩ := hahead
  refine ⟨rest, ?_⟩
  show more ++ rest = s.bytes.drop (s.position + bytes.length)
  rw [← List.drop_drop, ← hrest, List.append_assoc, List.drop_left]

theorem Ahead.left (hahead : s.Ahead (bytes ++ more)) : s.Ahead bytes :=
  List.IsPrefix.trans (List.prefix_append bytes more) hahead

end ByteArray

/-- The call returns `a` where it finds these bytes, and moves behind them. -/
def Reads (little : Bool) (bytes : List Byte) (x : Op α) (a : α) : Prop :=
  ∀ s : ByteArray, s.WellFormed → s.littleEndian = little → s.Ahead bytes →
    x s = .ok a (s.advance bytes.length)

namespace Reads

theorem pure (a : α) : Reads little [] (Pure.pure a : Op α) a := fun _ _ _ _ => rfl

theorem bind {x : Op α} {f : α → Op β} {a : α} {b : β} (hx : Reads little bytes x a)
    (hf : Reads little more (f a) b) : Reads little (bytes ++ more) (x >>= f) b := by
  intro s h hlittle hahead
  rw [bind_ok f (hx s h hlittle hahead.left),
    hf _ (h.advance hahead.left) hlittle hahead.advance, List.length_append]
  show EStateM.Result.ok b { s with position := s.position + bytes.length + more.length } = _
  rw [Nat.add_assoc]
  rfl

theorem map {x : Op α} {a : α} (f : α → β) (hx : Reads little bytes x a) :
    Reads little bytes (f <$> x) (f a) := by
  intro s h hlittle hahead
  show EStateM.map f x s = _
  rw [EStateM.map, hx s h hlittle hahead]

/-- A step that reads nothing comes first. -/
theorem after {x : Op α} {f : α → Op β} {a : α} {b : β} (hx : Reads little [] x a)
    (hf : Reads little bytes (f a) b) : Reads little bytes (x >>= f) b := bind hx hf

theorem raw (bytes : List Byte) : Reads little bytes (readRaw bytes.length) bytes := by
  intro s h _ hahead
  rw [readRaw, ByteArray.read_eq h, if_pos (hahead.length_le h),
    ← List.prefix_iff_eq_take.mp hahead]
  rfl

end Reads

theorem length_fixedBytes (little : Bool) (bits : BitVec w) :
    (fixedBytes little bits).length = w / 8 := by
  rw [fixedBytes, List.length_map, List.length_range]

/-- In either order the bytes of a number cover it. -/
theorem fixedShift_covers (little : Bool) (hw : 8 ∣ w) :
    ∀ j < w, ∃ i < w / 8, fixedShift little (w / 8) i ≤ j ∧ j < fixedShift little (w / 8) i + 8 := by
  intro j hj
  obtain ⟨size, rfl⟩ := hw
  rw [Nat.mul_div_cancel_left size (by decide)]
  cases little with
  | true =>
    refine ⟨j / 8, by omega, ?_⟩
    show j / 8 * 8 ≤ j ∧ j < j / 8 * 8 + 8
    omega
  | false =>
    refine ⟨size - 1 - j / 8, by omega, ?_⟩
    have hshift : size - 1 - (size - 1 - j / 8) = j / 8 := by omega
    show (size - 1 - (size - 1 - j / 8)) * 8 ≤ j ∧ j < (size - 1 - (size - 1 - j / 8)) * 8 + 8
    rw [hshift]
    omega

/-- **`readFixed`** reads what `writeFixed` writes. -/
theorem reads_readFixed (hw : 8 ∣ w) (bits : BitVec w) :
    Reads little (fixedBytes little bits) (readFixed w) bits := by
  intro s h hlittle hahead
  have hraw := Reads.raw (fixedBytes little bits) s h hlittle hahead
  rw [length_fixedBytes] at hraw
  rw [readFixed, bind_ok _ hraw, length_fixedBytes]
  show EStateM.Result.ok (orAll (fixedShift s.littleEndian (w / 8)) _ (w / 8)) _ = _
  rw [hlittle]
  refine congrArg (fun bits => EStateM.Result.ok bits _) ?_
  rw [← orAll_byteAt bits (fixedShift_covers little hw)]
  refine orAll_congr fun i hi => ?_
  rw [orAll_byteAt bits (fixedShift_covers little hw), fixedBytes, List.getElem?_map,
    List.getElem?_range hi]
  rfl

/-- One byte. -/
theorem reads_readFuint8 (byte : Byte) :
    Reads little [byte] readFuint8 (UInt8.ofBitVec byte) := by
  have hbytes : fixedBytes little byte = [byte] := by
    have hzero : fixedShift little 1 0 = 0 := by
      cases little with
      | true => rfl
      | false => rfl
    show [byteAt byte (fixedShift little 1 0)] = [byte]
    rw [hzero, byteAt, BitVec.ushiftRight_zero, BitVec.setWidth_eq]
  have hfixed : Reads little (fixedBytes little byte) (readFixed 8) byte :=
    reads_readFixed (by decide) byte
  rw [hbytes] at hfixed
  exact hfixed.map UInt8.ofBitVec

/-! ### Varints -/

/-- A varint of `size` bytes holds `w` bits, the last byte being at most `last`. -/
structure VarintForm (w size : ℕ) (last : UInt8) : Prop where
  wide : 8 ≤ w
  last_lt : last.toNat < 0x80
  le_last : ∀ value : BitVec w, (value >>> (7 * (size - 1))).toNat ≤ last.toNat

theorem VarintForm.fits {size : ℕ} {last : UInt8} (hform : VarintForm w size last)
    (value : BitVec w) {index : ℕ} (hindex : index + 1 = size) :
    (value >>> (7 * index)).toNat ≤ last.toNat := by
  have hlast : index = size - 1 := by omega
  rw [hlast]
  exact hform.le_last value

theorem varintForm_32 : VarintForm 32 5 0x0f := by
  refine ⟨by decide, by decide, fun value => ?_⟩
  have hlt := value.isLt
  rw [BitVec.toNat_ushiftRight, Nat.shiftRight_eq_div_pow]
  show value.toNat / 2 ^ 28 ≤ 15
  omega

theorem varintForm_64 : VarintForm 64 10 0x01 := by
  refine ⟨by decide, by decide, fun value => ?_⟩
  have hlt := value.isLt
  rw [BitVec.toNat_ushiftRight, Nat.shiftRight_eq_div_pow]
  show value.toNat / 2 ^ 63 ≤ 1
  omega

theorem toNat_ge_iff (hw : 8 ≤ w) (value : BitVec w) :
    value ≥ 0x80#w ↔ ¬ value.toNat < 0x80 := by
  have hpow : 2 ^ 8 ≤ 2 ^ w := Nat.pow_le_pow_right (by decide) hw
  rw [ge_iff_le, BitVec.le_def, BitVec.toNat_ofNat, Nat.mod_eq_of_lt (by omega), Nat.not_lt]

section readVarint

variable {size : ℕ} {last : UInt8} {value : BitVec w}

/-- The groups read so far, and the next one. -/
theorem low_next {byte : Byte} (index : ℕ)
    (hbyte : (byte &&& 0x7f#8).setWidth w = low (value >>> (7 * index)) 7) :
    low value (7 * index) ||| ((UInt8.ofBitVec byte).toBitVec &&& 0x7f#8).setWidth w <<< (index * 7) =
      low value (7 * (index + 1)) := by
  show low value (7 * index) ||| (byte &&& 0x7f#8).setWidth w <<< (index * 7) = _
  rw [hbyte, Nat.mul_comm index 7, low_add, Nat.mul_add, Nat.mul_one]

/-- The last byte of a varint. -/
theorem reads_last (hform : VarintForm w size last) (left index : ℕ)
    (hlt : (value >>> (7 * index)).toNat < 0x80)
    (hle : index + 1 = size → (value >>> (7 * index)).toNat ≤ last.toNat) :
    Reads little (varintBytes (left + 1) (value >>> (7 * index)))
      (readVarint w size last (left + 1) index (low value (7 * index))) value := by
  have hcheck : ¬ (index + 1 = size ∧
      UInt8.ofBitVec ((value >>> (7 * index)).setWidth 8) > last) := by
    rintro ⟨hindex, hgt⟩
    rw [gt_iff_lt, UInt8.lt_iff_toNat_lt] at hgt
    have hgt : last.toNat < ((value >>> (7 * index)).setWidth 8).toNat := hgt
    rw [BitVec.toNat_setWidth] at hgt
    have hmod := Nat.mod_le (value >>> (7 * index)).toNat (2 ^ 8)
    have hle := hle hindex
    omega
  unfold varintBytes readVarint
  rw [if_neg (mt (toNat_ge_iff hform.wide _).mp (not_not.mpr hlt))]
  refine Reads.bind (reads_readFuint8 _) ?_
  rw [if_neg hcheck, low_next index (low_seven_last _)]
  show Reads little [] (if (value >>> (7 * index)).setWidth 8 &&& 0x80#8 = 0#8 then _ else _) _
  rw [if_pos (highBit_last hlt)]
  have hall : low value (7 * (index + 1)) = value := by
    refine low_eq_of_shift _ ?_
    rw [Nat.mul_add, Nat.mul_one, BitVec.shiftRight_add]
    exact shift_seven_last hlt
  rw [hall]
  exact Reads.pure value

/-- **`readVarint`** follows the loop that wrote the varint: what it has read so far are
the low bits of the number. -/
theorem reads_readVarint (hform : VarintForm w size last) (left index : ℕ)
    (hsize : left + 1 + index = size) :
    Reads little (varintBytes (left + 1) (value >>> (7 * index)))
      (readVarint w size last (left + 1) index (low value (7 * index))) value := by
  induction left generalizing index with
  | zero =>
    have hindex : index + 1 = size := by omega
    have hle := hform.fits value hindex
    exact reads_last hform 0 index (Nat.lt_of_le_of_lt hle hform.last_lt) (hform.fits value)
  | succ left ih =>
    by_cases hlt : (value >>> (7 * index)).toNat < 0x80
    · exact reads_last hform (left + 1) index hlt (hform.fits value)
    · have hcheck : ¬ (index + 1 = size ∧ UInt8.ofBitVec
          (((value >>> (7 * index) &&& 0x7f#w) ||| 0x80#w).setWidth 8) > last) := by omega
      unfold varintBytes readVarint
      rw [if_pos ((toNat_ge_iff hform.wide _).mpr hlt)]
      refine Reads.bind (reads_readFuint8 _) ?_
      rw [if_neg hcheck, low_next index (low_seven_more hform.wide _)]
      show Reads little _ (if ((value >>> (7 * index) &&& 0x7f#w) ||| 0x80#w).setWidth 8 &&&
        0x80#8 = 0#8 then _ else _) _
      rw [if_neg (highBit_more hform.wide _), ← BitVec.shiftRight_add]
      exact ih (index + 1) (by omega)

end readVarint

theorem reads_readUint32 (value : UInt32) :
    Reads little (varintBytes 5 value.toBitVec) readUint32 value := by
  have hread : Reads little (varintBytes 5 (value.toBitVec >>> (7 * 0)))
      (readVarint 32 5 0x0f 5 0 (low value.toBitVec (7 * 0))) value.toBitVec :=
    reads_readVarint varintForm_32 4 0 rfl
  rw [Nat.mul_zero, BitVec.ushiftRight_zero, low_zero] at hread
  exact hread.map UInt32.ofBitVec

theorem reads_readUint64 (value : UInt64) :
    Reads little (varintBytes 10 value.toBitVec) readUint64 value := by
  have hread : Reads little (varintBytes 10 (value.toBitVec >>> (7 * 0)))
      (readVarint 64 10 0x01 10 0 (low value.toBitVec (7 * 0))) value.toBitVec :=
    reads_readVarint varintForm_64 9 0 rfl
  rw [Nat.mul_zero, BitVec.ushiftRight_zero, low_zero] at hread
  exact hread.map UInt64.ofBitVec

theorem decodeZigzag32_encodeZigzag32 (value : Int32) :
    decodeZigzag32 (encodeZigzag32 value) = value := by
  show Int32.ofBitVec (unzigzag (zigzag value.toBitVec)) = value
  rw [unzigzag_zigzag, Int32.ofBitVec_toBitVec]

theorem decodeZigzag64_encodeZigzag64 (value : Int64) :
    decodeZigzag64 (encodeZigzag64 value) = value := by
  show Int64.ofBitVec (unzigzag (zigzag value.toBitVec)) = value
  rw [unzigzag_zigzag, Int64.ofBitVec_toBitVec]

/-! ### Strings -/

theorem reads_readString (value : List Byte) :
    Reads little value (readString value.length) value := by
  intro s h hlittle hahead
  have hle := hahead.length_le h
  have hroom : ¬ value.length > s.getReadSize := Nat.not_lt.mpr hle
  have hget : (get : Op ByteArray) s = .ok s s := rfl
  rw [readString, bind_ok _ hget, if_neg hroom]
  exact Reads.raw value s h hlittle hahead

/-- Every `u64` is a `size_t`. -/
theorem checkedSize_eq (value : UInt64) : checkedSize value = pure value.toNat := by
  have hlt := value.toNat_lt
  rw [checkedSize, if_neg]
  rw [sizeMax_eq]
  omega

/-- A string behind a length of 64 bits. -/
theorem reads_checked (value : List Byte) (h : value.length < 2 ^ 64) :
    Reads little value (checkedSize (UInt64.ofNat value.length) >>= readString) value := by
  have hlength : (UInt64.ofNat value.length).toNat = value.length := Nat.mod_eq_of_lt h
  rw [checkedSize_eq, hlength]
  exact Reads.after (Reads.pure _) (reads_readString value)

/-! ### Writing -/

/-- The bytes have been put at the cursor. -/
structure Appended (s : ByteArray) (bytes : List Byte) (s' : ByteArray) : Prop where
  wellFormed : s'.WellFormed
  baseSize : s'.baseSize = s.baseSize
  littleEndian : s'.littleEndian = s.littleEndian
  position : s'.position = s.position + bytes.length
  bytes : s'.bytes = splice s.bytes s.position bytes

/-- The call puts these bytes at the cursor if they fit, and throws otherwise. -/
def Writes (little : Bool) (bytes : List Byte) (x : Op Unit) : Prop :=
  ∀ s : ByteArray, s.WellFormed → s.littleEndian = little →
    (s.Fits bytes.length → ∃ s', x s = .ok () s' ∧ Appended s bytes s') ∧
    (¬ s.Fits bytes.length → ∃ s', x s = .error .lengthError s')

namespace Writes

theorem raw (fresh : ℕ → ℕ → Byte) (bytes : List Byte) :
    Writes little bytes (writeRaw fresh bytes) := by
  intro s h _
  unfold writeRaw
  constructor
  · intro hfits
    obtain ⟨s', hwrite, hwell, hbase, hposition, -, hlittle, -, hbytes⟩ :=
      ByteArray.write_ok fresh h hfits
    rw [hwrite]
    exact ⟨s', rfl, hwell, hbase, hlittle, hposition, hbytes⟩
  · intro hfits
    rw [ByteArray.write_error h hfits]
    exact ⟨s, rfl⟩

theorem nil : Writes little [] (pure ()) := by
  intro s h _
  have hfits : s.Fits 0 := h.fits_of_le (Nat.le_trans h.position h.size)
  exact ⟨fun _ => ⟨s, rfl, h, rfl, rfl, rfl, (splice_nil _ _).symm⟩,
    fun hnot => absurd hfits hnot⟩

theorem bind {x y : Op Unit} (hx : Writes little bytes x) (hy : Writes little more y) :
    Writes little (bytes ++ more) (x >>= fun _ => y) := by
  intro s h hlittle
  rw [List.length_append]
  by_cases hfirst : s.Fits bytes.length
  · obtain ⟨s₁, hok, happended⟩ := (hx s h hlittle).1 hfirst
    obtain ⟨hwrites, hthrows⟩ := hy s₁ happended.wellFormed (happended.littleEndian.trans hlittle)
    have hfits : s₁.Fits more.length ↔ s.Fits (bytes.length + more.length) := by
      rw [ByteArray.Fits, ByteArray.Fits, happended.baseSize, happended.position,
        Nat.add_assoc s.position]
    rw [bind_ok _ hok, ← hfits]
    refine ⟨fun hall => ?_, hthrows⟩
    obtain ⟨s₂, hok₂, happended₂⟩ := hwrites hall
    refine ⟨s₂, hok₂, happended₂.wellFormed, happended₂.baseSize.trans happended.baseSize,
      happended₂.littleEndian.trans happended.littleEndian, ?_, ?_⟩
    · rw [happended₂.position, happended.position, List.length_append, Nat.add_assoc]
    · rw [happended₂.bytes, happended.bytes, happended.position, splice_append]
      rw [h.length_bytes]
      exact h.position
  · obtain ⟨s₁, herror⟩ := (hx s h hlittle).2 hfirst
    rw [bind_error _ herror]
    refine ⟨fun hall => ?_, fun _ => ⟨s₁, rfl⟩⟩
    exact absurd (hall.mono (Nat.le_add_right _ _)) hfirst

end Writes

theorem writes_writeFixed (fresh : Fresh) (bits : BitVec w) :
    Writes little (fixedBytes little bits) (writeFixed fresh bits) := by
  intro s h hlittle
  subst hlittle
  exact Writes.raw (fresh 0) _ s h rfl

/-! ### Kinds -/

namespace Kind

/-- The bytes of a value. -/
def encode (little : Bool) : (kind : Kind) → kind.Carrier → List Byte
  | .fint8, value => fixedBytes little value.toBitVec
  | .fuint8, value => fixedBytes little value.toBitVec
  | .fint16, value => fixedBytes little value.toBitVec
  | .fuint16, value => fixedBytes little value.toBitVec
  | .fint32, value => fixedBytes little value.toBitVec
  | .fuint32, value => fixedBytes little value.toBitVec
  | .fint64, value => fixedBytes little value.toBitVec
  | .fuint64, value => fixedBytes little value.toBitVec
  | .int32, value => varintBytes 5 (encodeZigzag32 value).toBitVec
  | .uint32, value => varintBytes 5 value.toBitVec
  | .int64, value => varintBytes 10 (encodeZigzag64 value).toBitVec
  | .uint64, value => varintBytes 10 value.toBitVec
  | .float, bits => fixedBytes little bits
  | .double, bits => fixedBytes little bits
  | .stringF16, value => fixedBytes little (UInt16.ofNat value.length).toBitVec ++ value
  | .stringF32, value => fixedBytes little (UInt32.ofNat value.length).toBitVec ++ value
  | .stringF64, value => fixedBytes little (UInt64.ofNat value.length).toBitVec ++ value
  | .stringVint, value => varintBytes 10 (UInt64.ofNat value.length).toBitVec ++ value

/-- **Each `write` call** puts the bytes of its value at the cursor. -/
theorem writes (fresh : Fresh) (kind : Kind) (value : kind.Carrier) (h : kind.Within value) :
    Writes little (kind.encode little value) (kind.write fresh value) := by
  cases kind with
  | fint8 => exact writes_writeFixed fresh _
  | fuint8 => exact writes_writeFixed fresh _
  | fint16 => exact writes_writeFixed fresh _
  | fuint16 => exact writes_writeFixed fresh _
  | fint32 => exact writes_writeFixed fresh _
  | fuint32 => exact writes_writeFixed fresh _
  | fint64 => exact writes_writeFixed fresh _
  | fuint64 => exact writes_writeFixed fresh _
  | int32 => exact Writes.raw (fresh 0) _
  | uint32 => exact Writes.raw (fresh 0) _
  | int64 => exact Writes.raw (fresh 0) _
  | uint64 => exact Writes.raw (fresh 0) _
  | float => exact writes_writeFixed fresh _
  | double => exact writes_writeFixed fresh _
  | stringF16 =>
    have hlimit : ¬ List.length value > 2 ^ 16 - 1 := Nat.not_lt.mpr (Nat.le_sub_one_of_lt h)
    show Writes little _ (writeStringF16 fresh value)
    rw [writeStringF16, if_neg hlimit]
    exact Writes.bind (writes_writeFixed fresh _) (Writes.raw (fresh 1) value)
  | stringF32 =>
    have hlimit : ¬ List.length value > 2 ^ 32 - 1 := Nat.not_lt.mpr (Nat.le_sub_one_of_lt h)
    show Writes little _ (writeStringF32 fresh value)
    rw [writeStringF32, if_neg hlimit]
    exact Writes.bind (writes_writeFixed fresh _) (Writes.raw (fresh 1) value)
  | stringF64 => exact Writes.bind (writes_writeFixed fresh _) (Writes.raw (fresh 1) value)
  | stringVint => exact Writes.bind (Writes.raw (fresh 0) _) (Writes.raw (fresh 1) value)

/-- **Each `read` call** takes them from there. -/
theorem reads (kind : Kind) (value : kind.Carrier) (h : kind.Within value) :
    Reads little (kind.encode little value) kind.read value := by
  cases kind with
  | fint8 => exact (reads_readFixed (by decide) _).map Int8.ofBitVec
  | fuint8 => exact (reads_readFixed (by decide) _).map UInt8.ofBitVec
  | fint16 => exact (reads_readFixed (by decide) _).map Int16.ofBitVec
  | fuint16 => exact (reads_readFixed (by decide) _).map UInt16.ofBitVec
  | fint32 => exact (reads_readFixed (by decide) _).map Int32.ofBitVec
  | fuint32 => exact (reads_readFixed (by decide) _).map UInt32.ofBitVec
  | fint64 => exact (reads_readFixed (by decide) _).map Int64.ofBitVec
  | fuint64 => exact (reads_readFixed (by decide) _).map UInt64.ofBitVec
  | int32 =>
    have hread : Reads little (varintBytes 5 (encodeZigzag32 value).toBitVec) readInt32
        (decodeZigzag32 (encodeZigzag32 value)) :=
      (reads_readUint32 (encodeZigzag32 value)).map decodeZigzag32
    rwa [decodeZigzag32_encodeZigzag32] at hread
  | uint32 => exact reads_readUint32 value
  | int64 =>
    have hread : Reads little (varintBytes 10 (encodeZigzag64 value).toBitVec) readInt64
        (decodeZigzag64 (encodeZigzag64 value)) :=
      (reads_readUint64 (encodeZigzag64 value)).map decodeZigzag64
    rwa [decodeZigzag64_encodeZigzag64] at hread
  | uint64 => exact reads_readUint64 value
  | float =>
    exact ((reads_readFixed (by decide) value).map UInt32.ofBitVec).map UInt32.toBitVec
  | double =>
    exact ((reads_readFixed (by decide) value).map UInt64.ofBitVec).map UInt64.toBitVec
  | stringF16 =>
    have hlength : (UInt16.ofNat (List.length value)).toNat = List.length value :=
      Nat.mod_eq_of_lt h
    refine Reads.bind ((reads_readFixed (by decide) _).map UInt16.ofBitVec) ?_
    show Reads little value (readString (UInt16.ofNat (List.length value)).toNat) value
    rw [hlength]
    exact reads_readString value
  | stringF32 =>
    have hlength : (UInt32.ofNat (List.length value)).toNat = List.length value :=
      Nat.mod_eq_of_lt h
    refine Reads.bind ((reads_readFixed (by decide) _).map UInt32.ofBitVec) ?_
    show Reads little value (readString (UInt32.ofNat (List.length value)).toNat) value
    rw [hlength]
    exact reads_readString value
  | stringF64 =>
    refine Reads.bind ((reads_readFixed (by decide) _).map UInt64.ofBitVec) ?_
    exact reads_checked value h
  | stringVint => exact Reads.bind (reads_readUint64 _) (reads_checked value h)

end Kind

/-! ### Lists of values -/

/-- The bytes of a list of values. -/
def encodeAll (little : Bool) (values : List Value) : List Byte :=
  values.flatMap fun value => value.1.encode little value.2

theorem writes_writeAll (fresh : ℕ → Fresh) {values : List Value}
    (h : ∀ value ∈ values, value.1.Within value.2) :
    Writes little (encodeAll little values) (writeAll fresh values) := by
  induction values generalizing fresh with
  | nil => exact Writes.nil
  | cons value rest ih =>
    exact Writes.bind (value.1.writes (fresh 0) value.2 (h value List.mem_cons_self))
      (ih _ fun other hother => h other (List.mem_cons_of_mem value hother))

theorem reads_readAll {values : List Value} (h : ∀ value ∈ values, value.1.Within value.2) :
    Reads little (encodeAll little values) (readAll (values.map Sigma.fst)) values := by
  induction values with
  | nil => exact Reads.pure []
  | cons value rest ih =>
    have hrest := ih fun other hother => h other (List.mem_cons_of_mem value hother)
    exact Reads.bind (value.1.reads value.2 (h value List.mem_cons_self))
      (hrest.map fun values => value :: values)

/-- What was written is ahead once the cursor is back. -/
theorem Appended.ahead {back : ByteArray} (happended : Appended s bytes s') (hs : s.WellFormed)
    (hposition : back.position = s.position) (hstarts : s'.bytes <+: back.bytes) :
    back.Ahead bytes := by
  have hle : s.position ≤ s.bytes.length := by
    rw [hs.length_bytes]
    exact hs.position
  have hdrop : s'.bytes.drop s.position = bytes ++ s.bytes.drop (s.position + bytes.length) := by
    rw [happended.bytes, drop_splice hle]
  have hwithin : s.position ≤ s'.bytes.length := by
    have hend := happended.position
    have hsize := happended.wellFormed.position
    rw [happended.wellFormed.length_bytes]
    omega
  obtain ⟨skipped, hskipped⟩ := hstarts
  refine ⟨s.bytes.drop (s.position + bytes.length) ++ skipped, ?_⟩
  rw [hposition, ← hskipped, List.drop_append_of_le_length hwithin, hdrop, List.append_assoc]

/-- **Round trip**: after any calls, from any position within the capacity and in either
order of bytes, a list of values whose bytes fit is written, and read back from there
up to the position where writing ended; one whose bytes do not fit makes a write
throw. -/
theorem roundTrip_of_fits (h : ByteArray.system.Reachable s) {position : ℕ} (hle : position ≤ s.capacity)
    (fresh : ℕ → Fresh) {values : List Value}
    (hwithin : ∀ value ∈ values, value.1.Within value.2) :
    ∃ s₁, s.setPosition position = .ok s₁ ∧
      (s₁.Fits (encodeAll s.littleEndian values).length →
        ∃ s₂ s₃ s₄, writeAll fresh values s₁ = .ok () s₂ ∧ s₂.setPosition position = .ok s₃ ∧
          readAll (values.map Sigma.fst) s₃ = .ok values s₄ ∧ s₄.position = s₂.position) ∧
      (¬ s₁.Fits (encodeAll s.littleEndian values).length →
        ∃ s₂, writeAll fresh values s₁ = .error .lengthError s₂) := by
  obtain ⟨s₁, hset, hwell, hposition, -, -, hlittle, -⟩ :=
    ByteArray.setPosition_ok (ByteArray.wellFormed_of_reachable h) hle
  obtain ⟨hwrites, hthrows⟩ := writes_writeAll fresh hwithin s₁ hwell hlittle
  refine ⟨s₁, hset, fun hfits => ?_, hthrows⟩
  obtain ⟨s₂, hwrite, happended⟩ := hwrites hfits
  -- back to where writing began
  have hback : position ≤ s₂.capacity := by
    have hend := happended.position
    have hsize := happended.wellFormed.position
    have hcapacity := happended.wellFormed.size
    omega
  obtain ⟨s₃, hset₃, hwell₃, hposition₃, -, -, hlittle₃, hstarts⟩ :=
    ByteArray.setPosition_ok happended.wellFormed hback
  have hahead := happended.ahead hwell (hposition₃.trans hposition.symm) hstarts
  have hread := reads_readAll hwithin s₃ hwell₃
    (hlittle₃.trans (happended.littleEndian.trans hlittle)) hahead
  refine ⟨s₂, s₃, _, hwrite, hset₃, hread, ?_⟩
  show s₃.position + _ = s₂.position
  rw [hposition₃, happended.position, hposition]

/-- Some values: negative numbers, varints of two bytes, strings. -/
def sampleValues : List Value :=
  [⟨.fint16, -2⟩, ⟨.uint32, 300⟩, ⟨.int64, -64⟩, ⟨.float, 0x7fc00001#32⟩,
    ⟨.stringF16, [1#8, 2#8, 3#8]⟩, ⟨.stringVint, []⟩]

/-- The sample in blocks of three bytes, from the second byte on. -/
theorem roundTrip_of_fits_sample :
    ∃ s s₁ s₂ s₃ s₄, ByteArray.create 3 (fun _ => 0#8) = .ok s ∧ s.setPosition 1 = .ok s₁ ∧
      writeAll (fun _ _ _ _ => 0#8) sampleValues s₁ = .ok () s₂ ∧ s₂.setPosition 1 = .ok s₃ ∧
      readAll (sampleValues.map Sigma.fst) s₃ = .ok sampleValues s₄ ∧
      s₄.position = s₂.position := by
  obtain ⟨s, hs, hreach⟩ := ByteArray.exists_new (b := 3) (by decide) (by decide)
  have hwithin : ∀ value ∈ sampleValues, value.1.Within value.2 := by
    intro value hvalue
    simp only [sampleValues, List.mem_cons, List.not_mem_nil, or_false] at hvalue
    obtain rfl | rfl | rfl | rfl | rfl | rfl := hvalue <;> simp [Kind.Within]
  have hposition : 1 ≤ s.capacity := by
    obtain rfl := Except.ok.inj hs
    decide
  obtain ⟨s₁, hset, hroundTrip, -⟩ :=
    roundTrip_of_fits hreach hposition (fun _ _ _ _ => 0#8) hwithin
  have hfits : s₁.Fits (encodeAll s.littleEndian sampleValues).length := by
    obtain rfl := Except.ok.inj hs
    obtain rfl := Except.ok.inj hset
    rw [ByteArray.Fits, sizeMax_eq]
    decide +kernel
  obtain ⟨s₂, s₃, s₄, hwrite, hset₃, hread, hend⟩ := hroundTrip hfits
  exact ⟨s, s₁, s₂, s₃, s₄, hs, hset, hwrite, hset₃, hread, hend⟩

/-- Two blocks of the largest size that can be allocated, and the cursor behind them: a
third block cannot be counted, and the write of one byte throws. -/
theorem throws_at_limit :
    ∃ s s₁ s₂, ByteArray.system.Reachable s ∧ s.baseSize = 2 ^ 63 - 1 ∧
      2 ^ 64 - 2 ≤ s.capacity ∧ s.setPosition (2 ^ 64 - 2) = .ok s₁ ∧
      writeAll (fun _ _ _ _ => 0#8) [⟨.fuint8, 7⟩] s₁ = .error .lengthError s₂ := by
  obtain ⟨b, hb⟩ : ∃ b, b = 2 ^ 63 - 1 := ⟨_, rfl⟩
  have hmax : sizeMax = 2 * b + 1 := by
    rw [sizeMax_eq]
    omega
  obtain ⟨s, hs, hbase, hcapacity⟩ : ∃ s, ByteArray.create b (fun _ => 0#8) = .ok s ∧
      s.baseSize = b ∧ s.capacity = b := ⟨_, if_neg (by omega), rfl, rfl⟩
  have hreach : ByteArray.system.Reachable s := .init ⟨b, _, by omega, hs⟩
  -- one byte in the second block
  obtain ⟨s₁, hset₁, hwell₁, hposition₁, -, hbase₁, -⟩ :=
    ByteArray.setPosition_ok (ByteArray.wellFormed_of_reachable hreach) (Nat.le_of_eq hcapacity.symm)
  have hround : (b + 1 + b - 1) / b = 2 := Nat.div_eq_of_lt_le (by omega) (by omega)
  have hfits₁ : s₁.Fits [0#8].length := by
    show s₁.baseSize * ((s₁.position + 1 + s₁.baseSize - 1) / s₁.baseSize) ≤ sizeMax
    rw [hbase₁, hbase, hposition₁, hround]
    omega
  obtain ⟨s₂, hwrite, hwell₂, hbase₂, hposition₂, -⟩ :=
    ByteArray.write_ok (fun _ _ => 0#8) hwell₁ hfits₁
  have hreach₂ : ByteArray.system.Reachable s₂ := by
    have hcalls := ByteArray.reachable_call (ByteArray.reachable_call hreach (.setPosition b))
      (.write (fun _ _ => 0#8) [0#8])
    rw [ByteArray.call, ByteArray.call, hset₁] at hcalls
    rwa [ByteArray.answer, hwrite] at hcalls
  have hlarge : 2 * b ≤ s₂.capacity := by
    have hcount := hwell₂.capacity_eq
    have hwithin := Nat.le_trans hwell₂.position hwell₂.size
    rw [hcount, hbase₂, hbase₁, hbase] at hwithin ⊢
    rw [hposition₂, hposition₁] at hwithin
    rw [Nat.mul_comm]
    refine Nat.mul_le_mul_left b (Nat.lt_of_not_le fun hone => ?_)
    have hmul := Nat.mul_le_mul_left b hone
    rw [List.length_singleton] at hwithin
    omega
  obtain ⟨s₃, hset₃, hwell₃, hposition₃, -, hbase₃, -⟩ := ByteArray.setPosition_ok hwell₂ hlarge
  have hround₃ : (2 * b + 1 + b - 1) / b = 3 := Nat.div_eq_of_lt_le (by omega) (by omega)
  have hbeyond : ¬ s₃.Fits (fixedBytes s₃.littleEndian (7 : UInt8).toBitVec).length := by
    rw [length_fixedBytes]
    show ¬ s₃.baseSize * ((s₃.position + 1 + s₃.baseSize - 1) / s₃.baseSize) ≤ sizeMax
    rw [hbase₃, hbase₂, hbase₁, hbase, hposition₃, hround₃]
    omega
  obtain ⟨s₄, hthrows⟩ := (Kind.writes (fun _ _ _ => 0#8) .fuint8 7 trivial s₃ hwell₃ rfl).2 hbeyond
  have hlimit : 2 ^ 64 - 2 = 2 * b := by omega
  rw [hlimit]
  exact ⟨s₂, s₃, s₄, hreach₂, hbase₂.trans (hbase₁.trans (hbase.trans hb)), hlarge, hset₃,
    bind_error _ hthrows⟩

end Stream
