/-
Which varints are read, and which are written.

A varint is a number in groups of seven bits.  The `read` calls accept every one that
stands for a number of the right width, also one that is longer than it needs to be,
and nothing else; the `write` calls put the shortest one.

* `Varint` — the encodings of a number;
* `readVarint_accepts`, `readVarint_rejects` — the loop, by the number of bytes that it
  may still read;
* `shortest_varintBytes` — the loop that fills the array;
* `varints_exact` — the calls.
-/
import Droplet.Lib.Groups
import Droplet.Stream.RoundTrip

open Groups Words Transition.System

namespace Stream

variable {α β : Type} {little : Bool} {s s' : ByteArray} {bytes rest : List Byte} {w size : ℕ}
  {last : UInt8}

theorem map_ok {x : Op α} {a : α} (f : α → β) (h : x s = .ok a s') :
    (f <$> x) s = .ok (f a) s' := by
  show EStateM.map f x s = _
  rw [EStateM.map, h]

theorem map_error {x : Op α} {e : Error} (f : α → β) (h : x s = .error e s') :
    (f <$> x) s = .error e s' := by
  show EStateM.map f x s = _
  rw [EStateM.map, h]

/-! ### One byte -/

/-- Too few bytes are left: the call throws and reads none of them. -/
theorem readRaw_error (h : s.WellFormed) {n : ℕ} (hlt : s.size - s.position < n) :
    readRaw n s = .error .outOfRange s := by
  rw [readRaw, ByteArray.read_eq h, if_neg (Nat.not_le.mpr hlt)]

theorem readFixed_error (h : s.WellFormed) (hlt : s.size - s.position < w / 8) :
    readFixed w s = .error .outOfRange s := by
  rw [readFixed, bind_error _ (readRaw_error h hlt)]

theorem readFuint8_error (h : s.WellFormed) (hnone : s.size - s.position = 0) :
    readFuint8 s = .error .outOfRange s := by
  have hlt : s.size - s.position < 8 / 8 := by omega
  exact map_error UInt8.ofBitVec (readFixed_error h hlt)

namespace ByteArray

theorem advance_advance (s : ByteArray) (n m : ℕ) : (s.advance n).advance m = s.advance (n + m) := by
  show { s with position := s.position + n + m } = s.advance (n + m)
  rw [Nat.add_assoc]
  rfl

theorem advance_zero (s : ByteArray) : s.advance 0 = s := rfl

/-- There is a byte ahead as long as there is something to read. -/
theorem exists_ahead (h : s.WellFormed) (hpos : 0 < s.size - s.position) :
    ∃ byte : Byte, s.Ahead [byte] := by
  have hlength : 0 < (s.bytes.drop s.position).length := by
    rwa [List.length_drop, h.length_bytes]
  obtain ⟨byte, rest, hdrop⟩ := List.exists_cons_of_length_pos hlength
  refine ⟨byte, ?_⟩
  rw [Ahead, hdrop]
  exact ⟨rest, rfl⟩

/-- What is ahead behind a byte that is ahead. -/
theorem Ahead.cons {byte : Byte} (hbyte : s.Ahead [byte]) (hrest : (s.advance 1).Ahead rest) :
    s.Ahead (byte :: rest) := by
  obtain ⟨behind, hbehind⟩ := hbyte
  have hrest : rest <+: s.bytes.drop (s.position + 1) := hrest
  rw [← List.drop_drop, ← hbehind] at hrest
  rw [Ahead, ← hbehind]
  exact (List.prefix_cons_inj byte).mpr hrest

end ByteArray

/-! ### The loop that reads -/

/-- An encoding of a number of `w` bits, of at most `size` bytes. -/
structure Varint (w size : ℕ) (bytes : List Byte) (value : ℕ) : Prop where
  length : bytes.length ≤ size
  terminated : Terminated bytes
  number : number bytes = value
  lt : value < 2 ^ w

/-- The last of `size` bytes may be at most `last`, and then the word is full. -/
structure VarintLimit (w size : ℕ) (last : UInt8) : Prop where
  wide : 8 ≤ w
  last_lt : last.toNat < 0x80
  full : (last.toNat + 1) * 2 ^ (7 * (size - 1)) = 2 ^ w

theorem varintLimit_32 : VarintLimit 32 5 0x0f := ⟨by decide, by decide, by decide⟩

theorem varintLimit_64 : VarintLimit 64 10 0x01 := ⟨by decide, by decide, by decide⟩

/-- The check of the last byte does not throw. -/
abbrev Passes (size : ℕ) (last : UInt8) (index : ℕ) (byte : Byte) : Prop :=
  ¬ (index + 1 = size ∧ UInt8.ofBitVec byte > last)

section loop

variable {index left : ℕ} {byte : Byte} {result : BitVec w}

/-- What the loop has after one more byte. -/
def next (index : ℕ) (byte : Byte) (result : BitVec w) : BitVec w :=
  result ||| (byte &&& 0x7f#8).setWidth w <<< (index * 7)

theorem VarintLimit.passes_iff (hindex : index + 1 = size) :
    Passes size last index byte ↔ byte.toNat ≤ last.toNat := by
  have hgt : UInt8.ofBitVec byte > last ↔ last.toNat < byte.toNat := UInt8.lt_iff_toNat_lt
  rw [Passes, hgt]
  omega

/-- A byte that passes is within the word. -/
theorem VarintLimit.fits (hlimit : VarintLimit w size last) (hindex : index + 1 ≤ size)
    (hpasses : Passes size last index byte) : byte.toNat % 128 * 2 ^ (7 * index) < 2 ^ w := by
  have hpos : 0 < 2 ^ (7 * index) := Nat.two_pow_pos _
  obtain hlast | hmore := Nat.eq_or_lt_of_le hindex
  · have hle := (VarintLimit.passes_iff hlast).mp hpasses
    have hsub : size - 1 = index := by omega
    rw [← hlimit.full, hsub]
    refine Nat.mul_lt_mul_of_pos_right ?_ hpos
    have hmod := Nat.mod_le byte.toNat 128
    omega
  · calc byte.toNat % 128 * 2 ^ (7 * index)
        < 2 ^ 7 * 2 ^ (7 * index) := Nat.mul_lt_mul_of_pos_right (Nat.mod_lt _ (by decide)) hpos
      _ = 2 ^ (7 * (index + 1)) := by rw [← Nat.pow_add, Nat.mul_add, Nat.mul_one, Nat.add_comm]
      _ ≤ 2 ^ (7 * (size - 1)) := Nat.pow_le_pow_right (by decide) (by omega)
      _ ≤ (last.toNat + 1) * 2 ^ (7 * (size - 1)) := Nat.le_mul_of_pos_left _ (Nat.succ_pos _)
      _ = 2 ^ w := hlimit.full

theorem toNat_next (hlimit : VarintLimit w size last) (hindex : index + 1 ≤ size)
    (hpasses : Passes size last index byte) (hresult : result.toNat < 2 ^ (7 * index)) :
    (next index byte result).toNat = result.toNat + 2 ^ (7 * index) * (byte.toNat % 128) := by
  rw [next, Nat.mul_comm index 7]
  exact toNat_group hlimit.wide hresult (hlimit.fits hindex hpasses)

theorem next_lt (hlimit : VarintLimit w size last) (hindex : index + 1 ≤ size)
    (hpasses : Passes size last index byte) (hresult : result.toNat < 2 ^ (7 * index)) :
    (next index byte result).toNat < 2 ^ (7 * (index + 1)) := by
  have hmod : byte.toNat % 128 ≤ 127 := Nat.le_of_lt_succ (Nat.mod_lt _ (by decide))
  have hmul := Nat.mul_le_mul_left (2 ^ (7 * index)) hmod
  have hpow : 2 ^ (7 * (index + 1)) = 2 ^ (7 * index) * 127 + 2 ^ (7 * index) := by
    rw [Nat.mul_add, Nat.pow_add]
    omega
  rw [toNat_next hlimit hindex hpasses hresult, hpow]
  omega

/-- The number of all groups, whether the next one has been read or not. -/
theorem next_add (rest : List Byte) (hlimit : VarintLimit w size last) (hindex : index + 1 ≤ size)
    (hpasses : Passes size last index byte) (hresult : result.toNat < 2 ^ (7 * index)) :
    (next index byte result).toNat + 2 ^ (7 * (index + 1)) * number rest =
      result.toNat + 2 ^ (7 * index) * number (byte :: rest) := by
  have hpow : 2 ^ (7 * (index + 1)) = 2 ^ (7 * index) * 128 := by rw [Nat.mul_add, Nat.pow_add]
  rw [toNat_next hlimit hindex hpasses hresult, number_cons, hpow, Nat.mul_add, Nat.mul_assoc,
    Nat.add_assoc]

/-- A byte of a number of the word passes. -/
theorem VarintLimit.passes (hlimit : VarintLimit w size last) (hterm : Terminated (byte :: rest))
    (hlength : rest.length + 1 + index ≤ size)
    (hlt : result.toNat + 2 ^ (7 * index) * number (byte :: rest) < 2 ^ w) :
    Passes size last index byte := by
  by_cases hindex : index + 1 = size
  · -- nothing can follow
    have hrest : rest = [] := List.eq_nil_of_length_eq_zero (by omega)
    subst hrest
    obtain ⟨hclear, -⟩ | ⟨-, hmore⟩ := hterm.cases_cons
    · rw [VarintLimit.passes_iff hindex]
      have hsub : size - 1 = index := by omega
      rw [number_singleton, toNat_of_msb_eq_false hclear, ← hlimit.full, hsub,
        Nat.mul_comm (last.toNat + 1)] at hlt
      have hmul := Nat.lt_of_mul_lt_mul_left (Nat.lt_of_le_of_lt (Nat.le_add_left _ _) hlt)
      omega
    · exact absurd rfl hmore.ne_nil
  · exact fun ⟨hlast, _⟩ => hindex hlast

/-- One round of the loop. -/
theorem readVarint_succ (h : s.WellFormed) (hbyte : s.Ahead [byte]) :
    readVarint w size last (left + 1) index result s =
      if ¬ Passes size last index byte then .error .outOfRange (s.advance 1)
      else if byte.msb = false then .ok (next index byte result) (s.advance 1)
      else readVarint w size last left (index + 1) (next index byte result) (s.advance 1) := by
  have hread : readFuint8 s = .ok (UInt8.ofBitVec byte) (s.advance 1) :=
    reads_readFuint8 byte s h rfl hbyte
  rw [readVarint, bind_ok _ hread]
  by_cases hpasses : Passes size last index byte
  · rw [if_neg (not_not.mpr hpasses), if_neg hpasses]
    show (if byte &&& 0x80#8 = 0#8 then pure (next index byte result)
      else readVarint w size last left (index + 1) (next index byte result) : Op (BitVec w)) _ = _
    by_cases hclear : byte.msb = false
    · rw [if_pos ((and_highBit_eq_zero_iff byte).mpr hclear), if_pos hclear]
      rfl
    · rw [if_neg (mt (and_highBit_eq_zero_iff byte).mp hclear), if_neg hclear]
  · rw [if_pos hpasses, if_pos (not_not.mp hpasses)]
    rfl

/-- **The loop accepts** an encoding that is ahead. -/
theorem readVarint_accepts (hlimit : VarintLimit w size last) (hsize : left + index = size)
    (hterm : Terminated bytes) (hlength : bytes.length ≤ left)
    (hresult : result.toNat < 2 ^ (7 * index))
    (hlt : result.toNat + 2 ^ (7 * index) * number bytes < 2 ^ w)
    (h : s.WellFormed) (hahead : s.Ahead bytes) :
    ∃ value, readVarint w size last left index result s = .ok value (s.advance bytes.length) ∧
      value.toNat = result.toNat + 2 ^ (7 * index) * number bytes := by
  induction left generalizing index result bytes s with
  | zero => exact absurd (List.eq_nil_of_length_eq_zero (Nat.le_zero.mp hlength)) hterm.ne_nil
  | succ left ih =>
    obtain ⟨byte, rest, rfl⟩ := List.exists_cons_of_ne_nil hterm.ne_nil
    rw [List.length_cons] at hlength
    have hindex : index + 1 ≤ size := by omega
    have hpasses : Passes size last index byte := hlimit.passes hterm (by omega) hlt
    have hbyte : s.Ahead [byte] := List.IsPrefix.trans (List.prefix_append [byte] rest) hahead
    rw [readVarint_succ h hbyte, if_neg (not_not.mpr hpasses)]
    obtain ⟨hclear, rfl⟩ | ⟨hset, hmore⟩ := hterm.cases_cons
    · rw [if_pos hclear]
      refine ⟨_, rfl, ?_⟩
      rw [toNat_next hlimit hindex hpasses hresult, number_singleton]
    · have hnot : ¬ byte.msb = false := by simp [hset]
      have hadd := next_add rest hlimit hindex hpasses hresult
      rw [if_neg hnot]
      have hbehind : (s.advance 1).Ahead rest := by
        have hahead : s.Ahead ([byte] ++ rest) := hahead
        exact hahead.advance
      obtain ⟨value, hread, hvalue⟩ := ih (by omega) hmore (by omega)
        (next_lt hlimit hindex hpasses hresult) (by rwa [hadd]) (h.advance hbyte) hbehind
      refine ⟨value, ?_, by rw [hvalue, hadd]⟩
      have hcount : [byte].length + rest.length = (byte :: rest).length := Nat.add_comm 1 rest.length
      rw [ByteArray.advance_advance, hcount] at hread
      exact hread

/-- **The loop throws** where none is ahead, behind the last byte that it may read. -/
theorem readVarint_rejects (hlimit : VarintLimit w size last) (hsize : left + index = size)
    (hresult : result.toNat < 2 ^ (7 * index)) (h : s.WellFormed)
    (hnone : ∀ bytes, s.Ahead bytes → Terminated bytes → bytes.length ≤ left →
      ¬ result.toNat + 2 ^ (7 * index) * number bytes < 2 ^ w) :
    readVarint w size last left index result s =
      .error .outOfRange (s.advance (min left (s.size - s.position))) := by
  induction left generalizing index result s with
  | zero =>
    rw [Nat.zero_min, ByteArray.advance_zero]
    rfl
  | succ left ih =>
    obtain hzero | hpos := Nat.eq_zero_or_pos (s.size - s.position)
    · rw [hzero, Nat.min_zero, ByteArray.advance_zero, readVarint,
        bind_error _ (readFuint8_error h hzero)]
    obtain ⟨byte, hbyte⟩ := ByteArray.exists_ahead h hpos
    have hindex : index + 1 ≤ size := by omega
    rw [readVarint_succ h hbyte]
    by_cases hpasses : Passes size last index byte
    · rw [if_neg (not_not.mpr hpasses)]
      by_cases hclear : byte.msb = false
      · -- the byte alone is an encoding
        refine absurd ?_ (hnone [byte] hbyte (terminated_singleton hclear) (Nat.le_add_left 1 left))
        rw [number_singleton, ← toNat_next hlimit hindex hpasses hresult]
        exact (next index byte result).isLt
      · rw [if_neg hclear]
        have hrest : ∀ rest, (s.advance 1).Ahead rest → Terminated rest → rest.length ≤ left →
            ¬ (next index byte result).toNat + 2 ^ (7 * (index + 1)) * number rest < 2 ^ w := by
          intro rest hahead hterm hlength
          rw [next_add rest hlimit hindex hpasses hresult]
          exact hnone (byte :: rest) (hbyte.cons hahead)
            (hterm.cons (Bool.eq_true_of_not_eq_false hclear)) (Nat.succ_le_succ hlength)
        have hmin : 1 + min left (s.size - (s.position + 1)) = min (left + 1) (s.size - s.position) := by
          omega
        have hthrows := ih (by omega) (next_lt hlimit hindex hpasses hresult) (h.advance hbyte) hrest
        rw [ByteArray.advance_advance] at hthrows
        rw [← hmin]
        exact hthrows
    · -- only the last byte can be too large
      have hlast : index + 1 = size := (not_not.mp hpasses).1
      have hleft : left = 0 := by omega
      have hmin : min (left + 1) (s.size - s.position) = 1 := by omega
      rw [if_pos hpasses, hmin]

end loop

/-- A call that accepts exactly the encodings of at most `size` bytes. -/
structure ReadsVarints (w size : ℕ) (read : Op α) (toNat : α → ℕ) : Prop where
  accepts : ∀ s, ByteArray.system.Reachable s → ∀ value s', read s = .ok value s' ↔
    ∃ bytes, s.Ahead bytes ∧ Varint w size bytes (toNat value) ∧ s' = s.advance bytes.length
  throws : ∀ s, ByteArray.system.Reachable s →
    (∀ bytes value, s.Ahead bytes → ¬ Varint w size bytes value) →
      read s = .error .outOfRange (s.advance (min size (s.size - s.position)))

/-- A call that reads what the loop has read from its start. -/
theorem readsVarints (hlimit : VarintLimit w size last) {read : Op α} {toNat : α → ℕ}
    (ofWord : BitVec w → α) (hof : ∀ bits, toNat (ofWord bits) = bits.toNat)
    (hinjective : ∀ a b, toNat a = toNat b → a = b)
    (hread : read = ofWord <$> readVarint w size last size 0 0#w) :
    ReadsVarints w size read toNat := by
  have hzero : (0#w).toNat < 2 ^ (7 * 0) := Nat.one_pos
  have hstart : ∀ n, (0#w).toNat + 2 ^ (7 * 0) * n = n := by
    intro n
    rw [BitVec.toNat_zero, Nat.zero_add, Nat.mul_zero, Nat.pow_zero, Nat.one_mul]
  have hok : ∀ {s : ByteArray}, s.WellFormed → ∀ {bytes : List Byte} {value : ℕ}, s.Ahead bytes →
      Varint w size bytes value → ∃ a, read s = .ok a (s.advance bytes.length) ∧ toNat a = value := by
    intro s h bytes value hahead hvarint
    have hlt : (0#w).toNat + 2 ^ (7 * 0) * number bytes < 2 ^ w := by
      rw [hstart, hvarint.number]
      exact hvarint.lt
    obtain ⟨bits, hloop, hbits⟩ := readVarint_accepts hlimit (Nat.add_zero size)
      hvarint.terminated hvarint.length hzero hlt h hahead
    rw [hread]
    exact ⟨ofWord bits, map_ok ofWord hloop, by rw [hof, hbits, hstart, hvarint.number]⟩
  have herror : ∀ {s : ByteArray}, s.WellFormed →
      (∀ bytes value, s.Ahead bytes → ¬ Varint w size bytes value) →
      read s = .error .outOfRange (s.advance (min size (s.size - s.position))) := by
    intro s h hnone
    rw [hread]
    refine map_error ofWord (readVarint_rejects hlimit (Nat.add_zero size) hzero h ?_)
    intro bytes hahead hterm hlength hlt
    rw [hstart] at hlt
    exact hnone bytes _ hahead ⟨hlength, hterm, rfl, hlt⟩
  refine ⟨?_, fun s hs => herror (ByteArray.wellFormed_of_reachable hs)⟩
  intro s hs value s'
  have h := ByteArray.wellFormed_of_reachable hs
  constructor
  · intro hreturn
    by_cases hsome : ∃ bytes value, s.Ahead bytes ∧ Varint w size bytes value
    · obtain ⟨bytes, n, hahead, hvarint⟩ := hsome
      obtain ⟨a, hr, ha⟩ := hok h hahead hvarint
      rw [hr] at hreturn
      cases hreturn
      exact ⟨bytes, hahead, ha ▸ hvarint, rfl⟩
    · rw [herror h fun bytes n hahead hvarint => hsome ⟨bytes, n, hahead, hvarint⟩] at hreturn
      cases hreturn
  · rintro ⟨bytes, hahead, hvarint, rfl⟩
    obtain ⟨a, hr, ha⟩ := hok h hahead hvarint
    rw [hr, hinjective a value ha]

theorem readsVarints_32 : ReadsVarints 32 5 readUint32 UInt32.toNat :=
  readsVarints varintLimit_32 UInt32.ofBitVec (fun _ => rfl)
    (fun _ _ heq => UInt32.toNat_inj.mp heq) rfl

theorem readsVarints_64 : ReadsVarints 64 10 readUint64 UInt64.toNat :=
  readsVarints varintLimit_64 UInt64.ofBitVec (fun _ => rfl)
    (fun _ _ heq => UInt64.toNat_inj.mp heq) rfl

/-! ### The loop that writes -/

/-- The seven bits of a byte that has them from a word. -/
theorem toNat_seven {byte : Byte} (value : BitVec w) (hw : 8 ≤ w)
    (hbyte : (byte &&& 0x7f#8).setWidth w = low value 7) : byte.toNat % 128 = value.toNat % 128 := by
  have hpow : 2 ^ 8 ≤ 2 ^ w := Nat.pow_le_pow_right (by decide) hw
  have hbits := congrArg BitVec.toNat hbyte
  rw [BitVec.toNat_setWidth, toNat_lowMask, toNat_low, Nat.mod_eq_of_lt (by omega)] at hbits
  exact hbits

/-- A value of one group. -/
theorem shortest_varintBytes_last (hw : 8 ≤ w) (room : ℕ) {value : BitVec w}
    (hlt : value.toNat < 0x80) :
    Shortest (varintBytes (room + 1) value) ∧ number (varintBytes (room + 1) value) = value.toNat ∧
      (varintBytes (room + 1) value).length ≤ room + 1 := by
  have hclear := (and_highBit_eq_zero_iff _).mp (highBit_last hlt)
  rw [varintBytes, if_neg (mt (toNat_ge_iff hw value).mp (not_not.mpr hlt))]
  refine ⟨shortest_singleton hclear, ?_, Nat.le_add_left 1 room⟩
  rw [number_singleton, toNat_seven value hw (low_seven_last value), Nat.mod_eq_of_lt hlt]

/-- **The array** holds the shortest encoding, if it has room. -/
theorem shortest_varintBytes (hw : 8 ≤ w) (room : ℕ) (value : BitVec w)
    (hroom : value.toNat < 2 ^ (7 * (room + 1))) :
    Shortest (varintBytes (room + 1) value) ∧ number (varintBytes (room + 1) value) = value.toNat ∧
      (varintBytes (room + 1) value).length ≤ room + 1 := by
  induction room generalizing value with
  | zero => exact shortest_varintBytes_last hw 0 hroom
  | succ room ih =>
    by_cases hlt : value.toNat < 0x80
    · exact shortest_varintBytes_last hw (room + 1) hlt
    · have hbits := toNat_seven value hw (low_seven_more hw value)
      have hset := mt (and_highBit_eq_zero_iff _).mpr (highBit_more hw value)
      have hshift : (value >>> 7).toNat = value.toNat / 128 := by
        rw [BitVec.toNat_ushiftRight, Nat.shiftRight_eq_div_pow]
      have hrest : (value >>> 7).toNat < 2 ^ (7 * (room + 1)) := by
        rw [hshift, Nat.div_lt_iff_lt_mul (by decide)]
        rw [Nat.mul_add, Nat.pow_add] at hroom
        exact hroom
      obtain ⟨hshortest, hnumber, hlength⟩ := ih (value >>> 7) hrest
      have hpos : 0 < number (varintBytes (room + 1) (value >>> 7)) := by
        rw [hnumber, hshift]
        omega
      rw [varintBytes, if_pos ((toNat_ge_iff hw value).mpr hlt)]
      refine ⟨hshortest.cons (Bool.eq_true_of_not_eq_false hset) hpos, ?_, Nat.succ_le_succ hlength⟩
      rw [number_cons, hbits, hnumber, hshift]
      omega

/-- A call that writes the shortest of the encodings of a value. -/
def WritesShortest (w size : ℕ) (write : Op Unit) (value : ℕ) : Prop :=
  ∃ bytes, Varint w size bytes value ∧ (∀ little, Writes little bytes write) ∧
    ∀ other, Varint w size other value → other = bytes ∨ bytes.length < other.length

theorem writesShortest (hw : 8 ≤ w) (fresh : Fresh) (value : BitVec w)
    (hroom : w ≤ 7 * (size + 1)) :
    WritesShortest w (size + 1) (writeRaw (fresh 0) (varintBytes (size + 1) value)) value.toNat := by
  have hlt : value.toNat < 2 ^ (7 * (size + 1)) :=
    Nat.lt_of_lt_of_le value.isLt (Nat.pow_le_pow_right (by decide) hroom)
  obtain ⟨hshortest, hnumber, hlength⟩ := shortest_varintBytes hw size value hlt
  refine ⟨_, ⟨hlength, hshortest.terminated, hnumber, value.isLt⟩,
    fun little => Writes.raw (fresh 0) _, ?_⟩
  intro other hother
  exact hshortest.least other hother.terminated (hother.number.trans hnumber.symm)

theorem encodeZigzag32_decodeZigzag32 (value : UInt32) :
    encodeZigzag32 (decodeZigzag32 value) = value := by
  show UInt32.ofBitVec (zigzag (unzigzag value.toBitVec)) = value
  rw [zigzag_unzigzag]

theorem encodeZigzag64_decodeZigzag64 (value : UInt64) :
    encodeZigzag64 (decodeZigzag64 value) = value := by
  show UInt64.ofBitVec (zigzag (unzigzag value.toBitVec)) = value
  rw [zigzag_unzigzag]

/-- **Varints**: from any state that the calls can reach, `readUint32` and `readUint64`
return a value exactly when the bytes ahead start with an encoding of it, and move
behind it; otherwise they throw, having read no more bytes than an encoding may have and
none behind the readable end.  The zigzag forms are inverse to each other, and
`writeUint32` and `writeUint64` write the shortest encoding. -/
theorem varints_exact :
    ReadsVarints 32 5 readUint32 UInt32.toNat ∧ ReadsVarints 64 10 readUint64 UInt64.toNat ∧
      (Function.LeftInverse decodeZigzag32 encodeZigzag32 ∧
        Function.RightInverse decodeZigzag32 encodeZigzag32) ∧
      (Function.LeftInverse decodeZigzag64 encodeZigzag64 ∧
        Function.RightInverse decodeZigzag64 encodeZigzag64) ∧
      (∀ fresh value, WritesShortest 32 5 (writeUint32 fresh value) value.toNat) ∧
      ∀ fresh value, WritesShortest 64 10 (writeUint64 fresh value) value.toNat := by
  refine ⟨readsVarints_32, readsVarints_64, ⟨decodeZigzag32_encodeZigzag32, encodeZigzag32_decodeZigzag32⟩,
    ⟨decodeZigzag64_encodeZigzag64, encodeZigzag64_decodeZigzag64⟩, ?_, ?_⟩
  · exact fun fresh value => writesShortest (by decide) fresh value.toBitVec (by decide)
  · exact fun fresh value => writesShortest (by decide) fresh value.toBitVec (by decide)

end Stream
