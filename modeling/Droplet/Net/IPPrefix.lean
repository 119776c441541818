/-
Prefixes of IP addresses.

The functions of `IPv4Address` shift words of 32 bits, those of `IPv6Address` go through the
bytes, one of which the end of the prefix can fall into.  Both compute with the address as one
number.

* `testBit_networkByte`, `testBit_broadcastByte`, `testBit_maskByte` — what a round of the
  loops does to the bits of its byte;
* `toNat_prefixMask` — the shifted word;
* `countMaskBits_eq` — the ones in front of a byte string are counted;
* `prefixes_exact` — masks, networks and broadcast addresses as numbers.
-/
import Droplet.Net.Address
import Mathlib.Data.Nat.Bitwise

open Http Prefix

namespace Net

/-- The IP addresses, with the functions that both classes have. -/
inductive IPAddress
  | ipv4 (address : IPv4Address)
  | ipv6 (address : IPv6Address)
  deriving DecidableEq

namespace IPAddress

def width : IPAddress → ℕ
  | ipv4 _ => 32
  | ipv6 _ => 128

/-- The bytes of the address itself. -/
def addressBytes : IPAddress → Bytes
  | ipv4 a => a.sinAddr.toList
  | ipv6 a => a.sin6Addr.toList

def number (a : IPAddress) : ℕ := bigEndian a.addressBytes

def getPort : IPAddress → UInt16
  | ipv4 a => a.getPort
  | ipv6 a => a.getPort

def broadcastAddress (a : IPAddress) (prefixLength : ℕ) : Option IPAddress :=
  match a with
  | ipv4 a => (a.broadcastAddress prefixLength).map .ipv4
  | ipv6 a => (a.broadcastAddress prefixLength).map .ipv6

def networkAddress (a : IPAddress) (prefixLength : ℕ) : Option IPAddress :=
  match a with
  | ipv4 a => (a.networkAddress prefixLength).map .ipv4
  | ipv6 a => (a.networkAddress prefixLength).map .ipv6

def subnetMask (a : IPAddress) (prefixLength : ℕ) : Option IPAddress :=
  match a with
  | ipv4 _ => (IPv4Address.subnetMask prefixLength).map .ipv4
  | ipv6 _ => (IPv6Address.subnetMask prefixLength).map .ipv6

/-- Two addresses whose networks have nothing but the bytes of the address to differ in. -/
def SameEndpoint : IPAddress → IPAddress → Prop
  | ipv4 a, ipv4 b => a.getPort = b.getPort
  | ipv6 a, ipv6 b => { a with sin6Addr := b.sin6Addr } = b
  | _, _ => False

end IPAddress

/-- The inner loop of `CountMaskBits`, from bit 7 down: the count is returned at once at a one
behind a zero. -/
def countByte (byte : UInt8) : ℕ → ℕ × Bool → ℕ ⊕ (ℕ × Bool)
  | 0, state => .inr state
  | bit + 1, (result, zeroSeen) =>
    if byte &&& UInt8.ofNat (1 <<< bit) ≠ 0 then
      if zeroSeen then .inl result else countByte byte bit (result + 1, zeroSeen)
    else countByte byte bit (result, true)

def countBytes : Bytes → ℕ × Bool → ℕ
  | [], (result, _) => result
  | byte :: bytes, state =>
    match countByte byte 8 state with
    | .inl result => result
    | .inr state => countBytes bytes state

def countMaskBits (data : Bytes) : ℕ := countBytes data (0, false)

/-! ### Bytes -/

variable {p n i k : ℕ} {byte : UInt8}

theorem testBit_ofNat (hk : k < 8) (m : ℕ) : (UInt8.ofNat m).toNat.testBit k = m.testBit k := by
  rw [UInt8.toNat_ofNat', Nat.testBit_mod_two_pow, decide_eq_true hk, Bool.true_and]

theorem testBit_ones (j : ℕ) : (0xff : ℕ).testBit j = decide (j < 8) :=
  Nat.testBit_two_pow_sub_one 8 j

/-- Bit `k` of byte `i` has `8 * i + (7 - k)` bits in front of it. -/
theorem testBit_networkByte (hk : k < 8) : (IPv6Address.networkByte p i byte).toNat.testBit k =
    (decide (8 * i + (7 - k) < p) && byte.toNat.testBit k) := by
  rw [IPv6Address.networkByte]
  by_cases hin : i * 8 + 8 ≤ p
  · rw [if_pos hin, decide_eq_true (by omega), Bool.true_and]
  · rw [if_neg hin]
    by_cases hout : p ≤ i * 8
    · rw [if_pos hout, decide_eq_false (by omega), Bool.false_and]
      exact Nat.zero_testBit k
    · -- the prefix ends inside of this byte
      have hpart : k - (8 - (p - i * 8)) < 8 := by omega
      rw [if_neg hout, UInt8.toNat_and, Nat.testBit_and, testBit_ofNat hk, Nat.testBit_shiftLeft,
        testBit_ones, decide_eq_true hpart, Bool.and_true, Bool.and_comm]
      refine congrArg (· && _) (decide_eq_decide.mpr ?_)
      omega

theorem testBit_broadcastByte (hk : k < 8) :
    (IPv6Address.broadcastByte p i byte).toNat.testBit k =
      (decide (p ≤ 8 * i + (7 - k)) || byte.toNat.testBit k) := by
  rw [IPv6Address.broadcastByte]
  by_cases hin : i * 8 + 8 ≤ p
  · rw [if_pos hin, decide_eq_false (by omega), Bool.false_or]
  · rw [if_neg hin]
    by_cases hout : p ≤ i * 8
    · have hones : (0xff : UInt8).toNat.testBit k = true :=
        (testBit_ones k).trans (decide_eq_true hk)
      rw [if_pos hout, decide_eq_true (by omega), Bool.true_or, hones]
    · rw [if_neg hout, UInt8.toNat_or, Nat.testBit_or, testBit_ofNat hk, Nat.testBit_shiftRight,
        testBit_ones, Bool.or_comm]
      refine congrArg (· || _) (decide_eq_decide.mpr ?_)
      omega

theorem testBit_maskByte (hk : k < 8) : (IPv6Address.maskByte p i 0).toNat.testBit k =
    decide (8 * i + (7 - k) < p) := by
  rw [IPv6Address.maskByte]
  by_cases hin : i * 8 + 8 ≤ p
  · rw [if_pos hin, decide_eq_true (by omega)]
    exact (testBit_ones k).trans (decide_eq_true hk)
  · rw [if_neg hin]
    by_cases hpart : i * 8 < p
    · have hlt : k - (8 - (p - i * 8)) < 8 := by omega
      rw [if_pos hpart, testBit_ofNat hk, Nat.testBit_shiftLeft, testBit_ones, decide_eq_true hlt,
        Bool.and_true]
      refine decide_eq_decide.mpr ?_
      omega
    · rw [if_neg hpart, decide_eq_false (by omega)]
      exact Nat.zero_testBit k

/-! ### Byte strings -/

variable {bytes : Vector UInt8 n} {f : ℕ → UInt8 → UInt8}

theorem bigEndian_vector_lt (bytes : Vector UInt8 n) : bigEndian bytes.toList < 2 ^ (8 * n) := by
  have hlt := bigEndian_lt bytes.toList
  rwa [Vector.length_toList] at hlt

/-- **A loop over the bytes**: the bits of the number that its rounds leave. -/
theorem testBit_mapIdx (bit : ℕ → Bool → Bool) (hf : ∀ i byte, ∀ k < 8, (f i byte).toNat.testBit k =
    bit (8 * i + (7 - k)) (byte.toNat.testBit k)) {j : ℕ} (hj : j < 8 * n) :
    (bigEndian (bytes.mapIdx f).toList).testBit j =
      bit (8 * n - 1 - j) ((bigEndian bytes.toList).testBit j) := by
  refine testBit_of_bytes (fun j => bit (8 * n - 1 - j) ((bigEndian bytes.toList).testBit j))
    (by rw [Vector.length_toList]) (fun i hi k hk => ?_) hj
  rw [Vector.length_toList] at hi ⊢
  have hfront : 8 * n - 1 - (8 * (n - 1 - i) + k) = 8 * i + (7 - k) := by omega
  have hbit : (bigEndian bytes.toList).testBit (8 * (n - 1 - i) + k) =
      bytes[i].toNat.testBit k := by
    have hlength : i < bytes.toList.length := by rwa [Vector.length_toList]
    have hall := testBit_bigEndian hlength hk
    simpa only [Vector.length_toList, Vector.getElem_toList] using hall
  rw [Vector.getElem_toList, Vector.getElem_mapIdx, hf _ _ _ hk, hfront, hbit]

theorem testBit_vector_of_le (bytes : Vector UInt8 n) {j : ℕ} (hj : 8 * n ≤ j) :
    (bigEndian bytes.toList).testBit j = false :=
  Nat.testBit_eq_false_of_lt
    (Nat.lt_of_lt_of_le (bigEndian_vector_lt bytes) (Nat.pow_le_pow_right (by decide) hj))

theorem bigEndian_networkByte (hp : p ≤ 8 * n) :
    bigEndian (bytes.mapIdx (IPv6Address.networkByte p)).toList =
      bigEndian bytes.toList &&& mask (8 * n) p := by
  refine eq_and_mask hp (bigEndian_vector_lt _) fun j => ?_
  by_cases hj : j < 8 * n
  · rw [testBit_mapIdx (fun place b => decide (place < p) && b)
      (fun i byte k hk => testBit_networkByte hk) hj]
    refine congrArg (· && _) (decide_eq_decide.mpr ?_)
    omega
  · have hout := Nat.le_of_not_lt hj
    rw [testBit_vector_of_le _ hout, testBit_vector_of_le _ hout, Bool.and_false]

theorem bigEndian_broadcastByte (hp : p ≤ 8 * n) :
    bigEndian (bytes.mapIdx (IPv6Address.broadcastByte p)).toList =
      bigEndian bytes.toList ||| hostMask (8 * n) p := by
  refine eq_or_hostMask fun j => ?_
  by_cases hj : j < 8 * n
  · rw [testBit_mapIdx (fun place b => decide (p ≤ place) || b)
      (fun i byte k hk => testBit_broadcastByte hk) hj]
    refine congrArg (· || _) (decide_eq_decide.mpr ?_)
    omega
  · have hout := Nat.le_of_not_lt hj
    rw [testBit_vector_of_le _ hout, testBit_vector_of_le _ hout, Bool.or_false,
      decide_eq_false (by omega)]

theorem bigEndian_maskByte (hp : p ≤ 128) :
    bigEndian ((zeroed 16 []).mapIdx (IPv6Address.maskByte p)).toList = mask 128 p := by
  have hbytes : (zeroed 16 []).mapIdx (IPv6Address.maskByte p) =
      (zeroed 16 []).mapIdx fun i _ => IPv6Address.maskByte p i 0 := by
    refine Vector.ext fun i hi => ?_
    rw [Vector.getElem_mapIdx, Vector.getElem_mapIdx, zeroed, Vector.getElem_ofFn]
    rfl
  rw [hbytes]
  refine Nat.eq_of_testBit_eq fun j => ?_
  rw [testBit_mask hp]
  by_cases hj : j < 8 * 16
  · rw [testBit_mapIdx (fun place _ => decide (place < p))
      (fun i _ k hk => testBit_maskByte hk) hj, decide_eq_true hj, Bool.and_true]
    refine decide_eq_decide.mpr ?_
    omega
  · rw [testBit_vector_of_le _ (Nat.le_of_not_lt hj), decide_eq_false hj, Bool.and_false]

/-! ### Words -/

theorem toNat_ntohl (bytes : Vector UInt8 4) : (ntohl bytes).toNat = bigEndian bytes.toList := by
  rw [ntohl, UInt32.toNat_ofNat']
  exact Nat.mod_eq_of_lt (bigEndian_vector_lt bytes)

theorem bigEndian_htonl (value : UInt32) : bigEndian (htonl value).toList = value.toNat := by
  have hlt := value.toNat_lt
  have hlist : (htonl value).toList = [UInt8.ofNat (value.toNat / 2 ^ 24),
    UInt8.ofNat (value.toNat / 2 ^ 16), UInt8.ofNat (value.toNat / 2 ^ 8),
    UInt8.ofNat value.toNat] := rfl
  rw [hlist]
  simp only [bigEndian, List.foldl_cons, List.foldl_nil, UInt8.toNat_ofNat']
  omega

theorem ntohs_htons (value : UInt16) : ntohs (htons value) = value := by
  have hlt := value.toNat_lt
  have hlist : (htons value).toList =
    [UInt8.ofNat (value.toNat / 2 ^ 8), UInt8.ofNat value.toNat] := rfl
  rw [ntohs, hlist, ← UInt16.toNat_inj, UInt16.toNat_ofNat']
  simp only [bigEndian, List.foldl_cons, List.foldl_nil, UInt8.toNat_ofNat']
  omega

/-- **The shifted word** is the mask, also where there is nothing to shift. -/
theorem toNat_prefixMask (hp : p ≤ 32) : (IPv4Address.prefixMask p).toNat = mask 32 p := by
  rw [IPv4Address.prefixMask]
  by_cases hzero : p = 0
  · rw [if_pos hzero, hzero]
    rfl
  · have hones : (0xffffffff : UInt32).toNat = 2 ^ 32 - 1 := rfl
    have hshift : (UInt32.ofNat (32 - p)).toNat % 32 = 32 - p := by
      rw [UInt32.toNat_ofNat']
      omega
    rw [if_neg hzero, UInt32.toNat_shiftLeft, hshift, hones]
    refine Nat.eq_of_testBit_eq fun j => ?_
    rw [testBit_mask hp, Nat.testBit_mod_two_pow, Nat.testBit_shiftLeft,
      Nat.testBit_two_pow_sub_one]
    by_cases hj : 32 - p ≤ j ∧ j < 32
    · simp [hj, show j - (32 - p) < 32 by omega]
    · have hout : ¬(j < 32 ∧ j ≥ 32 - p) := fun h => hj ⟨h.2, h.1⟩
      grind

/-! ### Counted bits -/

theorem and_shift_ne_zero (hk : k < 8) :
    byte &&& UInt8.ofNat (1 <<< k) ≠ 0 ↔ byte.toNat.testBit k = true := by
  have hpow : (UInt8.ofNat (1 <<< k)).toNat = 2 ^ k := by
    rw [UInt8.toNat_ofNat', Nat.one_shiftLeft]
    exact Nat.mod_eq_of_lt (Nat.pow_lt_pow_right (by decide) hk)
  rw [Ne, ← UInt8.toNat_inj, UInt8.toNat_and, hpow, Nat.and_two_pow]
  cases byte.toNat.testBit k <;> simp

/-- What the loop over the bytes makes of a round. -/
def countRest (bytes : Bytes) : ℕ ⊕ (ℕ × Bool) → ℕ
  | .inl result => result
  | .inr state => countBytes bytes state

theorem countBytes_cons (bytes : Bytes) (state : ℕ × Bool) :
    countBytes (byte :: bytes) state = countRest bytes (countByte byte 8 state) := by
  rw [countBytes, countRest.eq_def]

/-- Behind a zero nothing is counted. -/
theorem countByte_seen (byte : UInt8) (result bit : ℕ) :
    countByte byte bit (result, true) = .inl result ∨
      countByte byte bit (result, true) = .inr (result, true) := by
  induction bit with
  | zero => exact .inr rfl
  | succ bit ih =>
    rw [countByte]
    split
    · exact .inl rfl
    · exact ih

theorem countBytes_seen (bytes : Bytes) (result : ℕ) :
    countBytes bytes (result, true) = result := by
  induction bytes with
  | nil => rfl
  | cons byte bytes ih =>
    rw [countBytes_cons]
    rcases countByte_seen byte result 8 with h | h
    · rw [h, countRest]
    · rw [h, countRest, ih]

theorem countRest_seen (byte : UInt8) (bytes : Bytes) (result bit : ℕ) :
    countRest bytes (countByte byte bit (result, true)) = result := by
  rcases countByte_seen byte result bit with h | h
  · rw [h, countRest]
  · rw [h, countRest, countBytes_seen]

/-- In front of the first zero every bit is counted, `bit` of them in this byte. -/
theorem countRest_unseen {bytes : Bytes} {rest : List Bool}
    (hrest : ∀ result, countBytes bytes (result, false) = result + (rest.takeWhile id).length)
    (bit result : ℕ) (hbit : bit ≤ 8) : countRest bytes (countByte byte bit (result, false)) =
      result + (((List.range bit).map (fun i => byte.toNat.testBit (bit - 1 - i)) ++
        rest).takeWhile id).length := by
  induction bit generalizing result with
  | zero => exact hrest result
  | succ bit ih =>
    have hshift : (List.range (bit + 1)).map (fun i => byte.toNat.testBit (bit + 1 - 1 - i)) =
        byte.toNat.testBit bit ::
          (List.range bit).map fun i => byte.toNat.testBit (bit - 1 - i) := by
      rw [List.range_succ_eq_map, List.map_cons, List.map_map]
      refine congrArg _ (List.map_congr_left fun i _ => ?_)
      rw [Function.comp_apply, show bit + 1 - 1 - i.succ = bit - 1 - i by omega]
    -- the bit that is looked at is the first of those that are left
    rw [countByte, hshift, List.cons_append]
    by_cases hone : byte.toNat.testBit bit = true
    · rw [if_pos ((and_shift_ne_zero (by omega)).mpr hone), if_neg Bool.false_ne_true,
        ih (result + 1) (by omega), hone, List.takeWhile_cons_of_pos (p := id) rfl,
        List.length_cons]
      omega
    · rw [if_neg (mt (and_shift_ne_zero (by omega)).mp hone), countRest_seen,
        Bool.eq_false_of_not_eq_true hone, List.takeWhile_cons_of_neg (p := id) Bool.false_ne_true,
        List.length_nil, Nat.add_zero]

/-- **The count** is that of the ones in front. -/
theorem countMaskBits_eq (data : Bytes) :
    countMaskBits data = ((bits data).takeWhile id).length := by
  have hall : ∀ result, countBytes data (result, false) =
      result + ((bits data).takeWhile id).length := by
    induction data with
    | nil => exact fun result => rfl
    | cons byte bytes ih =>
      intro result
      rw [countBytes_cons]
      exact countRest_unseen ih 8 result (by decide)
  rw [countMaskBits, hall, Nat.zero_add]

/-! ### Both classes -/

variable {a : IPAddress}

theorem ofHost_getPort (address : UInt32) (port : UInt16) :
    (IPv4Address.ofHost address port).getPort = port :=
  ntohs_htons port

theorem number_ofHost (address : UInt32) (port : UInt16) :
    (IPAddress.ipv4 (.ofHost address port)).number = address.toNat :=
  bigEndian_htonl address

theorem toNat_not_prefixMask (hp : p ≤ 32) :
    (~~~IPv4Address.prefixMask p).toNat = hostMask 32 p := by
  rw [UInt32.toNat_not, toNat_prefixMask hp]
  rfl

/-- What the functions give for a prefix that fits into the address. -/
structure PrefixNumbers (a : IPAddress) (p : ℕ) (m n b : IPAddress) : Prop where
  subnetMask : a.subnetMask p = some m
  networkAddress : a.networkAddress p = some n
  broadcastAddress : a.broadcastAddress p = some b
  widths : m.width = a.width ∧ n.width = a.width ∧ b.width = a.width
  mask_number : m.number = 2 ^ a.width - 2 ^ (a.width - p)
  network_number : n.number = a.number &&& m.number
  broadcast_number : b.number = a.number ||| (2 ^ a.width - 1 - m.number)
  ports : m.getPort = 0 ∧ n.getPort = a.getPort ∧ b.getPort = a.getPort

theorem prefixNumbers (hp : p ≤ a.width) : ∃ m n b, PrefixNumbers a p m n b := by
  cases a with
  | ipv4 a =>
    have hfits : ¬32 < p := Nat.not_lt.mpr hp
    have hmask := toNat_prefixMask hp
    refine ⟨.ipv4 ⟨2, zeroed 2 [], htonl (IPv4Address.prefixMask p), zeroed 8 []⟩,
      .ipv4 (.ofHost (ntohl a.sinAddr &&& IPv4Address.prefixMask p) a.getPort),
      .ipv4 (.ofHost (ntohl a.sinAddr ||| ~~~IPv4Address.prefixMask p) a.getPort), ?_⟩
    have hnumber : (IPAddress.ipv4 ⟨2, zeroed 2 [], htonl (IPv4Address.prefixMask p),
        zeroed 8 []⟩).number = mask 32 p := (bigEndian_htonl _).trans hmask
    constructor
    · exact congrArg (Option.map _) (if_neg hfits)
    · exact congrArg (Option.map _) (if_neg hfits)
    · exact congrArg (Option.map _) (if_neg hfits)
    · exact ⟨rfl, rfl, rfl⟩
    · exact hnumber
    · rw [number_ofHost, UInt32.toNat_and, toNat_ntohl, hmask, hnumber]
      rfl
    · rw [number_ofHost, UInt32.toNat_or, toNat_ntohl, toNat_not_prefixMask hp, hnumber]
      rfl
    · exact ⟨rfl, ofHost_getPort _ _, ofHost_getPort _ _⟩
  | ipv6 a =>
    have hfits : ¬128 < p := Nat.not_lt.mpr hp
    refine ⟨.ipv6 ⟨10, zeroed 2 [], zeroed 4 [],
        (zeroed 16 []).mapIdx (IPv6Address.maskByte p), zeroed 4 []⟩,
      .ipv6 { a with sin6Addr := a.sin6Addr.mapIdx (IPv6Address.networkByte p) },
      .ipv6 { a with sin6Addr := a.sin6Addr.mapIdx (IPv6Address.broadcastByte p) }, ?_⟩
    have hnumber : (IPAddress.ipv6 ⟨10, zeroed 2 [], zeroed 4 [],
        (zeroed 16 []).mapIdx (IPv6Address.maskByte p), zeroed 4 []⟩).number = mask 128 p :=
      bigEndian_maskByte hp
    constructor
    · exact congrArg (Option.map _) (if_neg hfits)
    · exact congrArg (Option.map _) (if_neg hfits)
    · exact congrArg (Option.map _) (if_neg hfits)
    · exact ⟨rfl, rfl, rfl⟩
    · exact hnumber
    · rw [hnumber]
      exact bigEndian_networkByte hp
    · rw [hnumber]
      exact bigEndian_broadcastByte hp
    · exact ⟨rfl, rfl, rfl⟩

theorem prefix_too_long (hp : a.width < p) :
    a.subnetMask p = none ∧ a.networkAddress p = none ∧ a.broadcastAddress p = none := by
  cases a with
  | ipv4 a => exact ⟨congrArg (Option.map _) (if_pos hp), congrArg (Option.map _) (if_pos hp),
      congrArg (Option.map _) (if_pos hp)⟩
  | ipv6 a => exact ⟨congrArg (Option.map _) (if_pos hp), congrArg (Option.map _) (if_pos hp),
      congrArg (Option.map _) (if_pos hp)⟩

/-! ### Networks -/

variable {a' m n' b : IPAddress} {net : IPAddress}

theorem length_addressBytes (a : IPAddress) : 8 * a.addressBytes.length = a.width := by
  cases a with
  | ipv4 a => rw [IPAddress.addressBytes, Vector.length_toList, IPAddress.width]
  | ipv6 a => rw [IPAddress.addressBytes, Vector.length_toList, IPAddress.width]

theorem sameEndpoint_network (h : a.networkAddress p = some n') : IPAddress.SameEndpoint n' a := by
  cases a with
  | ipv4 a =>
    obtain ⟨network, hnetwork, rfl⟩ := Option.map_eq_some_iff.mp h
    rw [IPv4Address.networkAddress] at hnetwork
    split at hnetwork
    · cases hnetwork
    · cases hnetwork
      exact ofHost_getPort _ _
  | ipv6 a =>
    obtain ⟨network, hnetwork, rfl⟩ := Option.map_eq_some_iff.mp h
    rw [IPv6Address.networkAddress] at hnetwork
    split at hnetwork
    · cases hnetwork
    · cases hnetwork
      rfl

theorem sameEndpoint_broadcast (h : a.broadcastAddress p = some b) :
    IPAddress.SameEndpoint b a := by
  cases a with
  | ipv4 a =>
    obtain ⟨broadcast, hbroadcast, rfl⟩ := Option.map_eq_some_iff.mp h
    rw [IPv4Address.broadcastAddress] at hbroadcast
    split at hbroadcast
    · cases hbroadcast
    · cases hbroadcast
      exact ofHost_getPort _ _
  | ipv6 a =>
    obtain ⟨broadcast, hbroadcast, rfl⟩ := Option.map_eq_some_iff.mp h
    rw [IPv6Address.broadcastAddress] at hbroadcast
    split at hbroadcast
    · cases hbroadcast
    · cases hbroadcast
      rfl

/-- The networks of one endpoint are told apart by their numbers. -/
theorem network_eq_iff (hsame : IPAddress.SameEndpoint a' a) (h' : a'.networkAddress p = some n')
    (h : a.networkAddress p = some net) : n' = net ↔ n'.number = net.number := by
  refine ⟨fun heq => heq ▸ rfl, fun hnumber => ?_⟩
  cases a' with
  | ipv4 a' =>
    cases a with
    | ipv6 a => exact hsame.elim
    | ipv4 a =>
      obtain ⟨left, hleft, rfl⟩ := Option.map_eq_some_iff.mp h'
      obtain ⟨right, hright, rfl⟩ := Option.map_eq_some_iff.mp h
      have hport : a'.getPort = a.getPort := hsame
      rw [IPv4Address.networkAddress] at hleft hright
      split at hleft
      · cases hleft
      · next hfits =>
        rw [if_neg hfits] at hright
        cases hleft
        cases hright
        rw [number_ofHost, number_ofHost, UInt32.toNat_inj] at hnumber
        rw [hnumber, hport]
  | ipv6 a' =>
    cases a with
    | ipv4 a => exact hsame.elim
    | ipv6 a =>
      obtain ⟨left, hleft, rfl⟩ := Option.map_eq_some_iff.mp h'
      obtain ⟨right, hright, rfl⟩ := Option.map_eq_some_iff.mp h
      have hrest : { a' with sin6Addr := a.sin6Addr } = a := hsame
      rw [IPv6Address.networkAddress] at hleft hright
      split at hleft
      · cases hleft
      · next hfits =>
        rw [if_neg hfits] at hright
        cases hleft
        cases hright
        have hlength : (a'.sin6Addr.mapIdx (IPv6Address.networkByte p)).toList.length =
            (a.sin6Addr.mapIdx (IPv6Address.networkByte p)).toList.length := by
          rw [Vector.length_toList, Vector.length_toList]
        have hbytes : a'.sin6Addr.mapIdx (IPv6Address.networkByte p) =
            a.sin6Addr.mapIdx (IPv6Address.networkByte p) :=
          Vector.toList_inj.mp ((bigEndian_inj hlength).mp hnumber)
        rw [hbytes, ← hrest]

/-- Networks of one width are those of the first bits. -/
theorem network_number_eq_iff (hp : p ≤ a.width) (hwidth : a'.width = a.width)
    (h' : a'.networkAddress p = some n') (h : a.networkAddress p = some net) :
    n'.number = net.number ↔
      ∀ i < p, a'.number.testBit (a.width - 1 - i) = a.number.testBit (a.width - 1 - i) := by
  obtain ⟨_, _, _, hnumbers⟩ := prefixNumbers hp
  obtain ⟨_, _, _, hnumbers'⟩ := prefixNumbers (a := a') (hp.trans_eq hwidth.symm)
  have heq := Option.some_inj.mp (hnumbers.networkAddress.symm.trans h)
  have heq' := Option.some_inj.mp (hnumbers'.networkAddress.symm.trans h')
  rw [← heq, ← heq', hnumbers.network_number, hnumbers'.network_number, hnumbers.mask_number,
    hnumbers'.mask_number, hwidth]
  exact and_mask_eq_iff hp

/-- **Prefixes** are arithmetic on the address as one number: the three functions are the masks
of it, which gives the order of their results, that networks are their own and those of their
broadcast addresses, and that they are the first bits of the address. -/
theorem prefixes_exact (a : IPAddress) (p : ℕ) :
    (p ≤ a.width → ∃ m n b, PrefixNumbers a p m n b ∧
      n.number ≤ a.number ∧ a.number ≤ b.number ∧
      n.networkAddress p = some n ∧ b.networkAddress p = some n ∧
      countMaskBits m.addressBytes = p ∧
      ∀ a' n' : IPAddress, a'.width = a.width → a'.networkAddress p = some n' →
        (n'.number = n.number ↔
          ∀ i < p, a'.number.testBit (a.width - 1 - i) = a.number.testBit (a.width - 1 - i)) ∧
        (a'.SameEndpoint a → (n' = n ↔
          ∀ i < p, a'.number.testBit (a.width - 1 - i) =
            a.number.testBit (a.width - 1 - i)))) ∧
    (a.width < p →
      a.subnetMask p = none ∧ a.networkAddress p = none ∧ a.broadcastAddress p = none) := by
  refine ⟨fun hp => ?_, prefix_too_long⟩
  obtain ⟨m, n, b, h⟩ := prefixNumbers hp
  obtain ⟨_, hwidthn, hwidthb⟩ := h.widths
  -- The network of a network or of a broadcast address has the number of the network.
  have hagain : ∀ c : IPAddress, c.width = a.width → c.SameEndpoint a →
      c.number &&& m.number = n.number → c.networkAddress p = some n := by
    intro c hwidth hsame hnumber
    obtain ⟨m', n', b', h'⟩ := prefixNumbers (a := c) (hp.trans_eq hwidth.symm)
    have hm : m'.number = m.number := by rw [h'.mask_number, h.mask_number, hwidth]
    have hn : n'.number = n.number := by rw [h'.network_number, hm, hnumber]
    rw [h'.networkAddress, (network_eq_iff hsame h'.networkAddress h.networkAddress).mpr hn]
  refine ⟨m, n, b, h, ?_, ?_, ?_, ?_, ?_, fun a' n' hwidth h' => ?_⟩
  · rw [h.network_number]
    exact Nat.and_le_left
  · rw [h.broadcast_number]
    exact Nat.left_le_or
  · refine hagain n hwidthn (sameEndpoint_network h.networkAddress) ?_
    rw [h.network_number, Nat.and_assoc, Nat.and_self]
  · refine hagain b hwidthb (sameEndpoint_broadcast h.broadcastAddress) ?_
    rw [h.broadcast_number, h.network_number, h.mask_number]
    exact and_mask_or hp
  · rw [countMaskBits_eq]
    refine takeWhile_bits ?_ hp h.mask_number
    rw [length_addressBytes, h.widths.1]
  · have hbits := network_number_eq_iff hp hwidth h' h.networkAddress
    exact ⟨hbits, fun hsame => (network_eq_iff hsame h' h.networkAddress).trans hbits⟩

end Net
