/-
What a `read` call that throws leaves behind.

`read` looks at the readable size first, so a number of fixed width is either read or
left alone.  A varint is read byte by byte and a string behind its length, and what has
been read of them stays read when the rest is missing or wrong.

* `Restores` — a call that throws has read nothing;
* `AllOrNothing` — nothing of the value can be read, or all of it is ahead;
* `Kind.restores_iff` — which calls are which.
-/
import Droplet.Stream.Varint

open Groups Words Transition.System

namespace Stream

variable {α β : Type} {s s' : ByteArray} {bytes : List Byte} {w size : ℕ}

/-- If the call throws, the cursor, the size and the stored bytes are as before. -/
def Restores (x : Op α) (s : ByteArray) : Prop :=
  ∀ e s', x s = .error e s' → s'.position = s.position ∧ s'.size = s.size ∧ s'.nodes = s.nodes

theorem restores_of_ok {x : Op α} {a : α} (h : x s = .ok a s') : Restores x s := by
  intro e s'' herror
  rw [h] at herror
  cases herror

theorem restores_of_error {x : Op α} {e : Error} (h : x s = .error e s) : Restores x s := by
  intro e' s' herror
  rw [h] at herror
  cases herror
  exact ⟨rfl, rfl, rfl⟩

/-- A call that throws behind some bytes. -/
theorem not_restores {x : Op α} {e : Error} {n : ℕ} (h : x s = .error e (s.advance n))
    (hpos : 0 < n) : ¬ Restores x s := by
  intro hrestores
  have hposition : s.position + n = s.position := (hrestores e _ h).1
  omega

theorem restores_map {x : Op α} (f : α → β) : Restores (f <$> x) s ↔ Restores x s := by
  constructor
  · intro h e s' herror
    exact h e s' (map_error f herror)
  · intro h e s' herror
    cases hx : x s with
    | ok a t =>
      rw [map_ok f hx] at herror
      cases herror
    | error e' t =>
      rw [map_error f hx] at herror
      cases herror
      exact h e s' hx

/-- Nothing comes after a call that throws. -/
theorem restores_bind_error {x : Op α} {e : Error} (f : α → Op β) (hx : x s = .error e s') :
    Restores (x >>= f) s ↔ Restores x s := by
  have hbind := bind_error f hx
  constructor
  · intro h e' s'' herror
    rw [hx] at herror
    cases herror
    exact h e s' hbind
  · intro h e' s'' herror
    rw [hbind] at herror
    cases herror
    exact h e s' hx

/-! ### Numbers -/

/-- The places of the bytes of a number are apart, in either order. -/
theorem fixedShift_apart (little : Bool) {n : ℕ} : ∀ i < n, ∀ k < n, i ≠ k →
    fixedShift little n i + 8 ≤ fixedShift little n k ∨
      fixedShift little n k + 8 ≤ fixedShift little n i := by
  intro i hi k hk hne
  cases little with
  | true =>
    show i * 8 + 8 ≤ k * 8 ∨ k * 8 + 8 ≤ i * 8
    omega
  | false =>
    show (n - 1 - i) * 8 + 8 ≤ (n - 1 - k) * 8 ∨ (n - 1 - k) * 8 + 8 ≤ (n - 1 - i) * 8
    omega

theorem fixedShift_within (little : Bool) {n : ℕ} : ∀ i < n, fixedShift little n i + 8 ≤ n * 8 := by
  intro i hi
  cases little with
  | true =>
    show i * 8 + 8 ≤ n * 8
    omega
  | false =>
    show (n - 1 - i) * 8 + 8 ≤ n * 8
    omega

/-- Any bytes are those of a number. -/
theorem exists_fixedBytes (little : Bool) (hw : 8 ∣ w) (hlength : bytes.length = w / 8) :
    ∃ bits : BitVec w, fixedBytes little bits = bytes := by
  have hwidth : w / 8 * 8 = w := Nat.div_mul_cancel hw
  have hwithin : ∀ i < w / 8, fixedShift little (w / 8) i + 8 ≤ w := by
    intro i hi
    have hle := fixedShift_within little i hi
    omega
  refine ⟨orAll (fixedShift little (w / 8)) (fun i => (bytes[i]?).getD 0#8) (w / 8), ?_⟩
  refine List.ext_getElem?  fun i => ?_
  rw [fixedBytes, List.getElem?_map]
  by_cases hi : i < w / 8
  · rw [List.getElem?_range hi, Option.map_some, byteAt_orAll _ (fixedShift_apart little) hwithin hi,
      List.getElem?_eq_getElem (by omega), Option.getD_some]
  · have hbeyond : (List.range (w / 8)).length ≤ i := by
      rw [List.length_range]
      omega
    rw [List.getElem?_eq_none hbeyond, List.getElem?_eq_none (by omega), Option.map_none]

/-- **`readFixed`** finds a number, or too few bytes. -/
theorem readFixed_cases (h : s.WellFormed) (hw : 8 ∣ w) :
    (s.getReadSize < w / 8 ∧ readFixed w s = .error .outOfRange s) ∨
      ∃ bits : BitVec w, s.Ahead (fixedBytes s.littleEndian bits) ∧
        readFixed w s = .ok bits (s.advance (w / 8)) := by
  by_cases hlt : s.getReadSize < w / 8
  · exact .inl ⟨hlt, readFixed_error h hlt⟩
  · have hlength : ((s.bytes.drop s.position).take (w / 8)).length = w / 8 := by
      have hle : w / 8 ≤ s.size - s.position := Nat.not_lt.mp hlt
      rw [List.length_take, List.length_drop, h.length_bytes]
      omega
    obtain ⟨bits, hbits⟩ := exists_fixedBytes s.littleEndian hw hlength
    have hahead : s.Ahead (fixedBytes s.littleEndian bits) := by
      rw [hbits]
      exact List.take_prefix _ _
    have hread := reads_readFixed hw bits s h rfl hahead
    rw [length_fixedBytes] at hread
    exact .inr ⟨bits, hahead, hread⟩

theorem restores_readFixed (h : s.WellFormed) (hw : 8 ∣ w) : Restores (readFixed w) s := by
  obtain ⟨-, herror⟩ | ⟨bits, -, hok⟩ := readFixed_cases h hw
  · exact restores_of_error herror
  · exact restores_of_ok hok

theorem exists_toNat_32 : ∀ n < 2 ^ 32, ∃ value : UInt32, value.toNat = n :=
  fun n hlt => ⟨UInt32.ofNat n, Nat.mod_eq_of_lt hlt⟩

theorem exists_toNat_64 : ∀ n < 2 ^ 64, ∃ value : UInt64, value.toNat = n :=
  fun n hlt => ⟨UInt64.ofNat n, Nat.mod_eq_of_lt hlt⟩

/-- An encoding is ahead. -/
def VarintAhead (w size : ℕ) (s : ByteArray) : Prop :=
  ∃ bytes value, s.Ahead bytes ∧ Varint w size bytes value

/-- **Varints**: the bytes in front of the failure stay read. -/
theorem ReadsVarints.restores_varint_iff {read : Op α} {toNat : α → ℕ}
    (hread : ReadsVarints w size read toNat) (hsize : 0 < size)
    (hof : ∀ n < 2 ^ w, ∃ a, toNat a = n) (hs : ByteArray.system.Reachable s) :
    Restores read s ↔ s.getReadSize = 0 ∨ VarintAhead w size s := by
  by_cases hahead : VarintAhead w size s
  · obtain ⟨bytes, value, hbytes, hvarint⟩ := hahead
    obtain ⟨a, rfl⟩ := hof value hvarint.lt
    have hok := (hread.accepts s hs a _).mpr ⟨bytes, hbytes, hvarint, rfl⟩
    exact iff_of_true (restores_of_ok hok) (.inr ⟨bytes, _, hbytes, hvarint⟩)
  · have herror := hread.throws s hs fun bytes value hbytes hvarint =>
      hahead ⟨bytes, value, hbytes, hvarint⟩
    obtain hzero | hpos := Nat.eq_zero_or_pos s.getReadSize
    · have hnone : s.size - s.position = 0 := hzero
      rw [hnone, Nat.min_zero, ByteArray.advance_zero] at herror
      exact iff_of_true (restores_of_error herror) (.inl hzero)
    · have hmin : 0 < min size (s.size - s.position) := Nat.lt_min.mpr ⟨hsize, hpos⟩
      refine iff_of_false (not_restores herror hmin) ?_
      rintro (hzero | hsome)
      · omega
      · exact hahead hsome

/-! ### Strings -/

/-- The length of a string is ahead, and as many bytes behind it. -/
def StringAhead (s : ByteArray) (bytes : List Byte) (length : ℕ) : Prop :=
  s.Ahead bytes ∧ bytes.length + length ≤ s.getReadSize

theorem readString_eq (h : s.WellFormed) (length : ℕ) :
    readString length s = if length ≤ s.getReadSize then
        .ok ((s.bytes.drop s.position).take length) (s.advance length)
      else .error .outOfRange s := by
  have hget : (get : Op ByteArray) s = .ok s s := rfl
  rw [readString, bind_ok _ hget]
  by_cases hle : length ≤ s.getReadSize
  · have hread : s.read length = .ok ((s.bytes.drop s.position).take length, s.advance length) := by
      rw [ByteArray.read_eq h]
      exact if_pos hle
    rw [if_neg (Nat.not_lt.mpr hle), if_pos hle, readRaw, hread]
  · rw [if_pos (Nat.not_le.mp hle), if_neg hle]
    rfl

/-- A string whose length has been read. -/
theorem restores_string {x : Op α} {f : α → Op (List Byte)} {a : α} {length : ℕ}
    (h : s.WellFormed) (hahead : s.Ahead bytes) (hpos : 0 < bytes.length)
    (hx : x s = .ok a (s.advance bytes.length)) (hf : f a = readString length) :
    Restores (x >>= f) s ↔ bytes.length + length ≤ s.getReadSize := by
  have hstring := readString_eq (h.advance hahead) length
  have hrun : (x >>= f) s = readString length (s.advance bytes.length) := by rw [bind_ok f hx, hf]
  have hle := hahead.length_le h
  have hroom : length ≤ (s.advance bytes.length).getReadSize ↔
      bytes.length + length ≤ s.getReadSize := by
    show length ≤ s.size - (s.position + bytes.length) ↔ bytes.length + length ≤ s.size - s.position
    omega
  rw [← hrun] at hstring
  by_cases hall : length ≤ (s.advance bytes.length).getReadSize
  · rw [if_pos hall] at hstring
    exact iff_of_true (restores_of_ok hstring) (hroom.mp hall)
  · rw [if_neg hall] at hstring
    exact iff_of_false (not_restores hstring hpos) (mt hroom.mpr hall)

/-- A string behind a length of fixed width. -/
theorem restores_fixedString {f : BitVec w → Op (List Byte)} (h : s.WellFormed) (hw : 8 ∣ w)
    (hpos : 0 < w) (hf : ∀ bits, f bits = readString bits.toNat) :
    Restores (readFixed w >>= f) s ↔
      s.getReadSize < w / 8 ∨
        ∃ length : BitVec w, StringAhead s (fixedBytes s.littleEndian length) length.toNat := by
  have hsize : 0 < w / 8 := Nat.div_pos (Nat.le_of_dvd hpos hw) (by decide)
  have hlength : ∀ bits : BitVec w, (fixedBytes s.littleEndian bits).length = w / 8 :=
    length_fixedBytes s.littleEndian
  obtain ⟨hlt, herror⟩ | ⟨bits, hahead, hok⟩ := readFixed_cases h hw
  · exact iff_of_true (restores_of_error (bind_error f herror)) (.inl hlt)
  · rw [← hlength bits] at hok
    rw [restores_string h hahead (by rwa [hlength]) hok (hf bits)]
    constructor
    · exact fun hle => .inr ⟨bits, hahead, hle⟩
    · rintro (hlt | ⟨length, hother, hle⟩)
      · have hwithin : (fixedBytes s.littleEndian bits).length ≤ s.getReadSize := hahead.length_le h
        rw [hlength] at hwithin
        omega
      · -- only one number is ahead
        have hread := reads_readFixed hw length s h rfl hother
        rw [hlength] at hread
        rw [hlength] at hok
        rw [hok] at hread
        cases hread
        exact hle

/-- A string behind a varint. -/
theorem restores_stringVint (hs : ByteArray.system.Reachable s) :
    Restores readStringVint s ↔
      s.getReadSize = 0 ∨ ∃ bytes value, Varint 64 10 bytes value ∧ StringAhead s bytes value := by
  have h := ByteArray.wellFormed_of_reachable hs
  have hnothing := readsVarints_64.restores_varint_iff (by decide) exists_toNat_64 hs
  by_cases hahead : VarintAhead 64 10 s
  · obtain ⟨bytes, value, hbytes, hvarint⟩ := hahead
    obtain ⟨a, rfl⟩ := exists_toNat_64 value hvarint.lt
    have hread := (readsVarints_64.accepts s hs a _).mpr ⟨bytes, hbytes, hvarint, rfl⟩
    have hpos : 0 < bytes.length := List.length_pos_of_ne_nil hvarint.terminated.ne_nil
    have hstring : (checkedSize a >>= readString : Op (List Byte)) = readString a.toNat := by
      rw [checkedSize_eq, pure_bind]
    rw [readStringVint, restores_string h hbytes hpos hread hstring]
    constructor
    · exact fun hle => .inr ⟨bytes, _, hvarint, hbytes, hle⟩
    · rintro (hzero | ⟨other, value, hother, hprefix, hle⟩)
      · have hwithin : bytes.length ≤ s.getReadSize := hbytes.length_le h
        omega
      · -- only one encoding is ahead
        obtain rfl := hvarint.terminated.eq_of_isPrefix hother.terminated hbytes hprefix
        rwa [← hother.number, hvarint.number] at hle
  · have herror := readsVarints_64.throws s hs fun bytes value hbytes hvarint =>
      hahead ⟨bytes, value, hbytes, hvarint⟩
    rw [readStringVint, restores_bind_error _ herror, hnothing]
    constructor
    · exact fun hor => .inl (hor.resolve_right hahead)
    · rintro (hzero | ⟨bytes, value, hvarint, hbytes, -⟩)
      · exact .inl hzero
      · exact absurd ⟨bytes, value, hbytes, hvarint⟩ hahead

/-! ### Kinds -/

/-- Nothing of the value can be read, or all of it is ahead; a number of fixed width is
read at once. -/
def Kind.AllOrNothing (s : ByteArray) : Kind → Prop
  | .int32 | .uint32 => s.getReadSize = 0 ∨ VarintAhead 32 5 s
  | .int64 | .uint64 => s.getReadSize = 0 ∨ VarintAhead 64 10 s
  | .stringF16 => s.getReadSize < 2 ∨
      ∃ length : BitVec 16, StringAhead s (fixedBytes s.littleEndian length) length.toNat
  | .stringF32 => s.getReadSize < 4 ∨
      ∃ length : BitVec 32, StringAhead s (fixedBytes s.littleEndian length) length.toNat
  | .stringF64 => s.getReadSize < 8 ∨
      ∃ length : BitVec 64, StringAhead s (fixedBytes s.littleEndian length) length.toNat
  | .stringVint => s.getReadSize = 0 ∨
      ∃ bytes value, Varint 64 10 bytes value ∧ StringAhead s bytes value
  | _ => True

/-- **A failed read**: from any state that the calls can reach, a `read` call that throws
leaves the cursor, the size and the stored bytes as they were exactly when nothing of
the value can be read, or when all of it is ahead, so that it does not throw. -/
theorem Kind.restores_iff (hs : ByteArray.system.Reachable s) (kind : Kind) :
    Restores kind.read s ↔ kind.AllOrNothing s := by
  have h := ByteArray.wellFormed_of_reachable hs
  cases kind with
  | fint8 => exact iff_of_true ((restores_map _).mpr (restores_readFixed h (by decide))) trivial
  | fuint8 => exact iff_of_true ((restores_map _).mpr (restores_readFixed h (by decide))) trivial
  | fint16 => exact iff_of_true ((restores_map _).mpr (restores_readFixed h (by decide))) trivial
  | fuint16 => exact iff_of_true ((restores_map _).mpr (restores_readFixed h (by decide))) trivial
  | fint32 => exact iff_of_true ((restores_map _).mpr (restores_readFixed h (by decide))) trivial
  | fuint32 => exact iff_of_true ((restores_map _).mpr (restores_readFixed h (by decide))) trivial
  | fint64 => exact iff_of_true ((restores_map _).mpr (restores_readFixed h (by decide))) trivial
  | fuint64 => exact iff_of_true ((restores_map _).mpr (restores_readFixed h (by decide))) trivial
  | float =>
    exact iff_of_true ((restores_map _).mpr ((restores_map _).mpr (restores_readFixed h (by decide))))
      trivial
  | double =>
    exact iff_of_true ((restores_map _).mpr ((restores_map _).mpr (restores_readFixed h (by decide))))
      trivial
  | int32 => exact (restores_map _).trans (readsVarints_32.restores_varint_iff (by decide) exists_toNat_32 hs)
  | uint32 => exact readsVarints_32.restores_varint_iff (by decide) exists_toNat_32 hs
  | int64 => exact (restores_map _).trans (readsVarints_64.restores_varint_iff (by decide) exists_toNat_64 hs)
  | uint64 => exact readsVarints_64.restores_varint_iff (by decide) exists_toNat_64 hs
  | stringF16 =>
    show Restores ((UInt16.ofBitVec <$> readFixed 16) >>= fun length => readString length.toNat) s ↔ _
    rw [bind_map_left]
    exact restores_fixedString h (by decide) (by decide) fun _ => rfl
  | stringF32 =>
    show Restores ((UInt32.ofBitVec <$> readFixed 32) >>= fun length => readString length.toNat) s ↔ _
    rw [bind_map_left]
    exact restores_fixedString h (by decide) (by decide) fun _ => rfl
  | stringF64 =>
    show Restores ((UInt64.ofBitVec <$> readFixed 64) >>= fun length =>
      checkedSize length >>= readString) s ↔ _
    rw [bind_map_left]
    refine restores_fixedString h (by decide) (by decide) fun bits => ?_
    rw [checkedSize_eq, pure_bind]
    rfl
  | stringVint => exact restores_stringVint hs

/-- In a new `ByteArray` every call restores what it finds. -/
theorem Kind.restores_iff_new : ∃ s, ByteArray.create 2 (fun _ => 0#8) = .ok s ∧
    (Restores Kind.stringVint.read s ↔ Kind.stringVint.AllOrNothing s) ∧
    Kind.stringVint.AllOrNothing s := by
  obtain ⟨s, hs, hreach⟩ := ByteArray.exists_new (b := 2) (by decide) (by decide)
  refine ⟨s, hs, Kind.restores_iff hreach .stringVint, .inl ?_⟩
  obtain rfl := Except.ok.inj hs
  rfl

/-- The first byte of a varint, and no second one: it stays read. -/
theorem not_restores_uint32 :
    ¬ ∀ s, ByteArray.system.Reachable s → ∀ kind : Kind, Restores kind.read s := by
  intro hall
  obtain ⟨s, hs, hreach⟩ := ByteArray.exists_new (b := 2) (by decide) (by decide)
  have hcalls := ByteArray.reachable_call (ByteArray.reachable_call hreach
    (.write (fun _ _ => 0#8) [0x80#8])) (.setPosition 0)
  obtain rfl := Except.ok.inj hs
  obtain hzero | ⟨bytes, value, hahead, hvarint⟩ :=
    (readsVarints_32.restores_varint_iff (by decide) exists_toNat_32 hcalls).mp (hall _ hcalls .uint32)
  · revert hzero
    decide +kernel
  · -- the byte that is ahead does not end a number
    have hone : bytes <+: [0x80#8] := by
      rw [ByteArray.Ahead] at hahead
      convert hahead using 1
      decide +kernel
    obtain ⟨byte, rest, rfl⟩ := List.exists_cons_of_ne_nil hvarint.terminated.ne_nil
    obtain ⟨rfl, hrest⟩ := List.cons_prefix_cons.mp hone
    obtain rfl := List.prefix_nil.mp hrest
    exact (hvarint.terminated.tail rfl).ne_nil rfl

end Stream
