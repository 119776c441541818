/-
What can be seen of a `ByteArray` by reading.

Two states with the same bytes, cursor and order of bytes answer every reading call in
the same way, whatever their blocks hold behind the readable end.

* `Alike`, `Cursor` — such states, and relations that moving the cursor keeps;
* `Reading` — the reading calls;
* `couples_reading` — they find the same in related states.
-/
import Droplet.Lib.TwoRuns
import Droplet.Stream.RoundTrip

open TwoRuns

namespace Stream

variable {s t : ByteArray} {w : ℕ}

namespace ByteArray

/-- `toString`: the bytes from the cursor on. -/
def toString (s : ByteArray) : Except Error (List Byte) :=
  if s.getReadSize = 0 then .ok [] else s.readAt s.getReadSize s.position

def getSize (s : ByteArray) : ℕ := s.size

def getPosition (s : ByteArray) : ℕ := s.position

end ByteArray

/-- The calls that read. -/
inductive Reading
  | read (size : ℕ)
  | readAt (size position : ℕ)
  | value (kind : Kind)
  | toString
  | getReadSize
  | getSize
  | getPosition
  | getReadBuffers (length : ℕ)
  | getReadBuffersAt (length position : ℕ)

/-- What a call returns; buffers are given by their length and what they lead to. -/
inductive Seen
  | nothing
  | bytes (bytes : List Byte)
  | value (value : Value)
  | number (n : ℕ)
  | buffers (length : ℕ) (bytes : List Byte)

/-- A call that leaves the state alone. -/
def look {α : Type} (f : ByteArray → Except Error α) : Op α := fun s =>
  match f s with
  | .ok a => .ok a s
  | .error e => .error e s

namespace Reading

def run : Reading → Op Seen
  | .read size => Seen.bytes <$> readRaw size
  | .readAt size position => look fun s => Seen.bytes <$> s.readAt size position
  | .value kind => (fun value => Seen.value ⟨kind, value⟩) <$> kind.read
  | .toString => look fun s => Seen.bytes <$> s.toString
  | .getReadSize => look fun s => .ok (.number s.getReadSize)
  | .getSize => look fun s => .ok (.number s.getSize)
  | .getPosition => look fun s => .ok (.number s.getPosition)
  | .getReadBuffers length => look fun s =>
    .ok (.buffers (s.getReadBuffers length).1 ((s.getReadBuffers length).2.flatMap s.contents))
  | .getReadBuffersAt length position => look fun s =>
    .ok (.buffers (s.getReadBuffersAt length position).1
      ((s.getReadBuffersAt length position).2.flatMap s.contents))

end Reading

/-- A list of reading calls, and what each of them returns or throws. -/
def readings (calls : List Reading) : Op (List (Except Error Seen)) :=
  calls.mapM fun call => attempt call.run

/-- The same for a reader: the bytes, the cursor and the order of bytes. -/
structure Alike (s t : ByteArray) : Prop where
  left : s.WellFormed
  right : t.WellFormed
  bytes : s.bytes = t.bytes
  position : s.position = t.position
  littleEndian : s.littleEndian = t.littleEndian

theorem Alike.size (h : Alike s t) : s.size = t.size := by
  rw [← h.left.length_bytes, ← h.right.length_bytes, h.bytes]

/-- A relation that a reader cannot leave. -/
structure Cursor (R : ByteArray → ByteArray → Prop) : Prop where
  alike : ∀ {s t}, R s t → Alike s t
  advance : ∀ {s t} (n : ℕ), R s t → n ≤ s.size - s.position → R (s.advance n) (t.advance n)

theorem wellFormed_advance (h : s.WellFormed) {n : ℕ} (hle : n ≤ s.size - s.position) :
    (s.advance n).WellFormed := by
  have hposition := h.position
  refine ⟨h.base, h.nodes, h.capacity, h.tail, ?_, h.size, h.bound⟩
  show s.position + n ≤ s.size
  omega

theorem cursor_alike : Cursor Alike := by
  refine ⟨fun h => h, fun n h hle => ?_⟩
  refine ⟨wellFormed_advance h.left hle, wellFormed_advance h.right ?_, h.bytes, ?_, h.littleEndian⟩
  · rwa [← h.size, ← h.position]
  · exact congrArg (· + n) h.position

section couples

variable {R : ByteArray → ByteArray → Prop} (hR : Cursor R)

include hR

theorem couples_readRaw (n : ℕ) : Couples R (readRaw n) (readRaw n) := by
  intro s t h
  have halike := hR.alike h
  rw [readRaw, readRaw, ByteArray.read_eq halike.left, ByteArray.read_eq halike.right]
  by_cases hle : n ≤ s.size - s.position
  · have hle' : n ≤ t.size - t.position := by rwa [← halike.size, ← halike.position]
    have hbytes : (s.bytes.drop s.position).take n = (t.bytes.drop t.position).take n := by
      rw [halike.bytes, halike.position]
    rw [if_pos hle, if_pos hle', hbytes]
    exact .ok (hR.advance n h hle)
  · have hnot : ¬ n ≤ t.size - t.position := by rwa [← halike.size, ← halike.position]
    rw [if_neg hle, if_neg hnot]
    exact .error h

theorem couples_readFixed (w : ℕ) : Couples R (readFixed w) (readFixed w) := by
  refine (couples_readRaw hR (w / 8)).bind fun bytes => Couples.get_bind fun s t h => ?_
  rw [(hR.alike h).littleEndian]
  exact .ok h

theorem couples_readVarint {size : ℕ} {last : UInt8} (left index : ℕ) (result : BitVec w) :
    Couples R (readVarint w size last left index result) (readVarint w size last left index result) := by
  induction left generalizing index result with
  | zero => exact Couples.throw Error.outOfRange
  | succ left ih =>
    refine ((couples_readFixed hR 8).map UInt8.ofBitVec).bind fun byte => ?_
    by_cases htoo : index + 1 = size ∧ byte > last
    · rw [if_pos htoo]
      exact Couples.throw Error.outOfRange
    · rw [if_neg htoo]
      show Couples R (if byte.toBitVec &&& 0x80#8 = 0#8 then _ else _) (if _ then _ else _)
      by_cases hclear : byte.toBitVec &&& 0x80#8 = 0#8
      · rw [if_pos hclear]
        exact Couples.pure _
      · rw [if_neg hclear]
        exact ih _ _

theorem couples_readString (length : ℕ) : Couples R (readString length) (readString length) := by
  refine Couples.get_bind fun s t h => ?_
  have halike := hR.alike h
  have hsize : s.getReadSize = t.getReadSize := by
    rw [ByteArray.getReadSize, ByteArray.getReadSize, halike.size, halike.position]
  rw [← hsize]
  by_cases hgt : length > s.getReadSize
  · rw [if_pos hgt]
    exact .error h
  · rw [if_neg hgt]
    exact couples_readRaw hR length s t h

omit hR in
theorem couples_checkedSize (value : UInt64) : Couples R (checkedSize value) (checkedSize value) := by
  rw [checkedSize_eq]
  exact Couples.pure _

/-- **Each `read` call** finds the same value. -/
theorem couples_read (kind : Kind) : Couples R kind.read kind.read := by
  have hreadUint32 : Couples R readUint32 readUint32 := (couples_readVarint hR 5 0 0#32).map _
  have hreadUint64 : Couples R readUint64 readUint64 := (couples_readVarint hR 10 0 0#64).map _
  cases kind with
  | fint8 => exact (couples_readFixed hR 8).map _
  | fuint8 => exact (couples_readFixed hR 8).map _
  | fint16 => exact (couples_readFixed hR 16).map _
  | fuint16 => exact (couples_readFixed hR 16).map _
  | fint32 => exact (couples_readFixed hR 32).map _
  | fuint32 => exact (couples_readFixed hR 32).map _
  | fint64 => exact (couples_readFixed hR 64).map _
  | fuint64 => exact (couples_readFixed hR 64).map _
  | int32 => exact hreadUint32.map _
  | uint32 => exact hreadUint32
  | int64 => exact hreadUint64.map _
  | uint64 => exact hreadUint64
  | float => exact ((couples_readFixed hR 32).map _).map _
  | double => exact ((couples_readFixed hR 64).map _).map _
  | stringF16 =>
    exact ((couples_readFixed hR 16).map _).bind fun length => couples_readString hR length.toNat
  | stringF32 =>
    exact ((couples_readFixed hR 32).map _).bind fun length => couples_readString hR length.toNat
  | stringF64 =>
    exact ((couples_readFixed hR 64).map _).bind fun length =>
      (couples_checkedSize length).bind (couples_readString hR)
  | stringVint =>
    exact hreadUint64.bind fun length => (couples_checkedSize length).bind (couples_readString hR)

omit hR in
/-- A call that finds the same in both states. -/
theorem couples_look {α : Type} {f : ByteArray → Except Error α} (hf : ∀ s t, R s t → f s = f t) :
    Couples R (look f) (look f) := by
  intro s t h
  rw [look, look, ← hf s t h]
  cases f s with
  | ok a => exact .ok h
  | error e => exact .error h

/-- **Each reading call** finds the same. -/
theorem couples_reading (call : Reading) : Couples R call.run call.run := by
  have hreadAt : ∀ s t, R s t → ∀ n position, s.readAt n position = t.readAt n position := by
    intro s t h n position
    have halike := hR.alike h
    rw [ByteArray.readAt_eq halike.left, ByteArray.readAt_eq halike.right, halike.size, halike.bytes]
  have hreadSize : ∀ s t, R s t → s.getReadSize = t.getReadSize := by
    intro s t h
    rw [ByteArray.getReadSize, ByteArray.getReadSize, (hR.alike h).size, (hR.alike h).position]
  cases call with
  | read size => exact (couples_readRaw hR size).map _
  | readAt size position =>
    exact couples_look fun s t h => by rw [hreadAt s t h]
  | value kind => exact (couples_read hR kind).map _
  | toString =>
    refine couples_look fun s t h => ?_
    rw [ByteArray.toString, ByteArray.toString, hreadSize s t h, (hR.alike h).position, hreadAt s t h]
  | getReadSize =>
    rw [Reading.run]
    exact couples_look fun s t h => by rw [hreadSize s t h]
  | getSize =>
    rw [Reading.run]
    refine couples_look fun s t h => ?_
    rw [ByteArray.getSize, ByteArray.getSize, (hR.alike h).size]
  | getPosition =>
    rw [Reading.run]
    refine couples_look fun s t h => ?_
    rw [ByteArray.getPosition, ByteArray.getPosition, (hR.alike h).position]
  | getReadBuffers length =>
    rw [Reading.run]
    refine couples_look fun s t h => ?_
    have halike := hR.alike h
    obtain ⟨hcount, hcontents⟩ := ByteArray.getReadBuffers_eq halike.left length
    obtain ⟨hcount', hcontents'⟩ := ByteArray.getReadBuffers_eq halike.right length
    rw [hcount, hcontents, hcount', hcontents', halike.size, halike.position, halike.bytes]
  | getReadBuffersAt length position =>
    rw [Reading.run]
    refine couples_look fun s t h => ?_
    have halike := hR.alike h
    obtain ⟨hcount, hcontents⟩ := ByteArray.getReadBuffersAt_eq halike.left length position
    obtain ⟨hcount', hcontents'⟩ := ByteArray.getReadBuffersAt_eq halike.right length position
    rw [hcount, hcontents, hcount', hcontents', halike.size, halike.bytes]

/-- **Any reading calls** in a row. -/
theorem couples_readings (calls : List Reading) : Couples R (readings calls) (readings calls) :=
  Couples.mapM (fun call => (couples_reading hR call).attempt) calls

end couples

end Stream
