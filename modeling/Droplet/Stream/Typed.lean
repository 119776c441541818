/-
Typed values in a `ByteArray`.

The `write` calls put a value at the cursor and the `read` calls take it from there.
Numbers of fixed width go byte by byte in the order that `little_endian_` says; varints
in groups of seven bits, the lowest first; strings behind their length.  A `float` and a
`double` are their bits.

* `readFixed`, `readVarint`, `readString` — what the `read` calls have in common;
* `Kind` — the pairs of calls, with the type of their values;
* `writeAll`, `readAll` — a list of calls.
-/
import Droplet.Stream.FlatBuffer
import Droplet.Lib.Words

open Splice Words Transition Transition.System

namespace Stream

/-- A call that may throw; what it did before that stays. -/
abbrev Op := EStateM Error ByteArray

/-- What new blocks hold, for each of the writes of a call. -/
abbrev Fresh := ℕ → ℕ → ℕ → Byte

def writeRaw (fresh : ℕ → ℕ → Byte) (source : List Byte) : Op Unit := fun s =>
  match s.write fresh source with
  | .ok s => .ok () s
  | .error e => .error e s

def readRaw (size : ℕ) : Op (List Byte) := fun s =>
  match s.read size with
  | .ok (bytes, s) => .ok bytes s
  | .error e => .error e s

/-! ### Numbers of fixed width -/

/-- The shift of a byte. -/
def fixedShift (littleEndian : Bool) (size i : ℕ) : ℕ :=
  if littleEndian then i * 8 else (size - 1 - i) * 8

/-- The bytes of a number. -/
def fixedBytes (littleEndian : Bool) {w : ℕ} (bits : BitVec w) : List Byte :=
  (List.range (w / 8)).map fun i => byteAt bits (fixedShift littleEndian (w / 8) i)

/-- `writeFixed`, for a type of `w` bits. -/
def writeFixed (fresh : Fresh) {w : ℕ} (bits : BitVec w) : Op Unit := do
  let s ← get
  writeRaw (fresh 0) (fixedBytes s.littleEndian bits)

/-- `readFixed`, for a type of `w` bits. -/
def readFixed (w : ℕ) : Op (BitVec w) := do
  let bytes ← readRaw (w / 8)
  let s ← get
  return orAll (fixedShift s.littleEndian (w / 8)) (fun i => (bytes[i]?).getD 0#8) (w / 8)

def writeFint8 (fresh : Fresh) (value : Int8) : Op Unit := writeFixed fresh value.toBitVec

def writeFuint8 (fresh : Fresh) (value : UInt8) : Op Unit := writeFixed fresh value.toBitVec

def writeFint16 (fresh : Fresh) (value : Int16) : Op Unit := writeFixed fresh value.toBitVec

def writeFuint16 (fresh : Fresh) (value : UInt16) : Op Unit := writeFixed fresh value.toBitVec

def writeFint32 (fresh : Fresh) (value : Int32) : Op Unit := writeFixed fresh value.toBitVec

def writeFuint32 (fresh : Fresh) (value : UInt32) : Op Unit := writeFixed fresh value.toBitVec

def writeFint64 (fresh : Fresh) (value : Int64) : Op Unit := writeFixed fresh value.toBitVec

def writeFuint64 (fresh : Fresh) (value : UInt64) : Op Unit := writeFixed fresh value.toBitVec

def readFint8 : Op Int8 := Int8.ofBitVec <$> readFixed 8

def readFuint8 : Op UInt8 := UInt8.ofBitVec <$> readFixed 8

def readFint16 : Op Int16 := Int16.ofBitVec <$> readFixed 16

def readFuint16 : Op UInt16 := UInt16.ofBitVec <$> readFixed 16

def readFint32 : Op Int32 := Int32.ofBitVec <$> readFixed 32

def readFuint32 : Op UInt32 := UInt32.ofBitVec <$> readFixed 32

def readFint64 : Op Int64 := Int64.ofBitVec <$> readFixed 64

def readFuint64 : Op UInt64 := UInt64.ofBitVec <$> readFixed 64

/-! ### Varints -/

/-- The loop that fills the array of a varint, with room for so many bytes. -/
def varintBytes {w : ℕ} : ℕ → BitVec w → List Byte
  | 0, _ => []
  | room + 1, value =>
    if value ≥ 0x80#w then
      ((value &&& 0x7f#w) ||| 0x80#w).setWidth 8 :: varintBytes room (value >>> 7)
    else [value.setWidth 8]

/-- The loop that reads a varint of at most `size` bytes, whose last byte is at most
`last`. -/
def readVarint (w size : ℕ) (last : UInt8) : ℕ → ℕ → BitVec w → Op (BitVec w)
  | 0, _, _ => throw .outOfRange
  | left + 1, index, result => do
    let byte ← readFuint8
    if index + 1 = size ∧ byte > last then throw .outOfRange
    else
      let result := result ||| (byte.toBitVec &&& 0x7f#8).setWidth w <<< (index * 7)
      if byte.toBitVec &&& 0x80#8 = 0#8 then return result
      else readVarint w size last left (index + 1) result

def writeUint32 (fresh : Fresh) (value : UInt32) : Op Unit :=
  writeRaw (fresh 0) (varintBytes 5 value.toBitVec)

def writeUint64 (fresh : Fresh) (value : UInt64) : Op Unit :=
  writeRaw (fresh 0) (varintBytes 10 value.toBitVec)

def readUint32 : Op UInt32 := UInt32.ofBitVec <$> readVarint 32 5 0x0f 5 0 0#32

def readUint64 : Op UInt64 := UInt64.ofBitVec <$> readVarint 64 10 0x01 10 0 0#64

def encodeZigzag32 (value : Int32) : UInt32 := UInt32.ofBitVec (zigzag value.toBitVec)

def encodeZigzag64 (value : Int64) : UInt64 := UInt64.ofBitVec (zigzag value.toBitVec)

def decodeZigzag32 (value : UInt32) : Int32 := Int32.ofBitVec (unzigzag value.toBitVec)

def decodeZigzag64 (value : UInt64) : Int64 := Int64.ofBitVec (unzigzag value.toBitVec)

def writeInt32 (fresh : Fresh) (value : Int32) : Op Unit := writeUint32 fresh (encodeZigzag32 value)

def writeInt64 (fresh : Fresh) (value : Int64) : Op Unit := writeUint64 fresh (encodeZigzag64 value)

def readInt32 : Op Int32 := decodeZigzag32 <$> readUint32

def readInt64 : Op Int64 := decodeZigzag64 <$> readUint64

/-! ### Floating point and strings -/

def writeFloat (fresh : Fresh) (bits : BitVec 32) : Op Unit :=
  writeFuint32 fresh (UInt32.ofBitVec bits)

def writeDouble (fresh : Fresh) (bits : BitVec 64) : Op Unit :=
  writeFuint64 fresh (UInt64.ofBitVec bits)

def readFloat : Op (BitVec 32) := UInt32.toBitVec <$> readFuint32

def readDouble : Op (BitVec 64) := UInt64.toBitVec <$> readFuint64

def writeStringF16 (fresh : Fresh) (value : List Byte) : Op Unit :=
  if value.length > 2 ^ 16 - 1 then throw .lengthError
  else do
    writeFuint16 fresh (UInt16.ofNat value.length)
    writeRaw (fresh 1) value

def writeStringF32 (fresh : Fresh) (value : List Byte) : Op Unit :=
  if value.length > 2 ^ 32 - 1 then throw .lengthError
  else do
    writeFuint32 fresh (UInt32.ofNat value.length)
    writeRaw (fresh 1) value

def writeStringF64 (fresh : Fresh) (value : List Byte) : Op Unit := do
  writeFuint64 fresh (UInt64.ofNat value.length)
  writeRaw (fresh 1) value

def writeStringVint (fresh : Fresh) (value : List Byte) : Op Unit := do
  writeUint64 fresh (UInt64.ofNat value.length)
  writeRaw (fresh 1) value

/-- `CheckedSize`. -/
def checkedSize (value : UInt64) : Op ℕ :=
  if value.toNat > sizeMax then throw .lengthError else return value.toNat

/-- What the calls that read a string do once they have its length. -/
def readString (length : ℕ) : Op (List Byte) := do
  let s ← get
  if length > s.getReadSize then throw .outOfRange else readRaw length

def readStringF16 : Op (List Byte) := do
  let length ← readFuint16
  readString length.toNat

def readStringF32 : Op (List Byte) := do
  let length ← readFuint32
  readString length.toNat

def readStringF64 : Op (List Byte) := do
  let length ← readFuint64
  let length ← checkedSize length
  readString length

def readStringVint : Op (List Byte) := do
  let length ← readUint64
  let length ← checkedSize length
  readString length

/-! ### Values -/

/-- The kinds of values. -/
inductive Kind
  | fint8
  | fuint8
  | fint16
  | fuint16
  | fint32
  | fuint32
  | fint64
  | fuint64
  | int32
  | uint32
  | int64
  | uint64
  | float
  | double
  | stringF16
  | stringF32
  | stringF64
  | stringVint
  deriving DecidableEq

namespace Kind

/-- The values of a kind. -/
abbrev Carrier : Kind → Type
  | .fint8 => Int8
  | .fuint8 => UInt8
  | .fint16 => Int16
  | .fuint16 => UInt16
  | .fint32 | .int32 => Int32
  | .fuint32 | .uint32 => UInt32
  | .fint64 | .int64 => Int64
  | .fuint64 | .uint64 => UInt64
  | .float => BitVec 32
  | .double => BitVec 64
  | .stringF16 | .stringF32 | .stringF64 | .stringVint => List Byte

/-- The `write` call of a kind. -/
def write (fresh : Fresh) : (kind : Kind) → kind.Carrier → Op Unit
  | .fint8 => writeFint8 fresh
  | .fuint8 => writeFuint8 fresh
  | .fint16 => writeFint16 fresh
  | .fuint16 => writeFuint16 fresh
  | .fint32 => writeFint32 fresh
  | .fuint32 => writeFuint32 fresh
  | .fint64 => writeFint64 fresh
  | .fuint64 => writeFuint64 fresh
  | .int32 => writeInt32 fresh
  | .uint32 => writeUint32 fresh
  | .int64 => writeInt64 fresh
  | .uint64 => writeUint64 fresh
  | .float => writeFloat fresh
  | .double => writeDouble fresh
  | .stringF16 => writeStringF16 fresh
  | .stringF32 => writeStringF32 fresh
  | .stringF64 => writeStringF64 fresh
  | .stringVint => writeStringVint fresh

/-- The `read` call of a kind. -/
def read : (kind : Kind) → Op kind.Carrier
  | .fint8 => readFint8
  | .fuint8 => readFuint8
  | .fint16 => readFint16
  | .fuint16 => readFuint16
  | .fint32 => readFint32
  | .fuint32 => readFuint32
  | .fint64 => readFint64
  | .fuint64 => readFuint64
  | .int32 => readInt32
  | .uint32 => readUint32
  | .int64 => readInt64
  | .uint64 => readUint64
  | .float => readFloat
  | .double => readDouble
  | .stringF16 => readStringF16
  | .stringF32 => readStringF32
  | .stringF64 => readStringF64
  | .stringVint => readStringVint

/-- A string is within the limit of its length prefix. -/
def Within : (kind : Kind) → kind.Carrier → Prop
  | .stringF16, value => value.length < 2 ^ 16
  | .stringF32, value => value.length < 2 ^ 32
  | .stringF64, value | .stringVint, value => value.length < 2 ^ 64
  | _, _ => True

end Kind

/-- A value with its kind. -/
abbrev Value := (kind : Kind) × kind.Carrier

/-- The `write` calls for a list of values. -/
def writeAll (fresh : ℕ → Fresh) : List Value → Op Unit
  | [] => return
  | value :: rest => do
    value.1.write (fresh 0) value.2
    writeAll (fun i => fresh (i + 1)) rest

/-- The `read` calls for a list of kinds. -/
def readAll : List Kind → Op (List Value)
  | [] => return []
  | kind :: rest => do
    let value ← kind.read
    let values ← readAll rest
    return ⟨kind, value⟩ :: values

end Stream
