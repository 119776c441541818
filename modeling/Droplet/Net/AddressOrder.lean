/-
The order of addresses.

`operator<` compares the families, then the lengths, and then the bytes with `memcmp`.

* `memcmpLess_iff` — `memcmp` compares the numbers that the bytes are, the first byte in front;
* `less_iff`, `equals_iff` — the two operators as an order of keys;
* `less_strictWeakOrder` — addresses can be sorted, and those that sort alike are equal;
* `less_ofHost` — IPv4 addresses are sorted by their ports first.
-/
import Droplet.Net.IPPrefix
import Mathlib.Data.Prod.Lex

open Http Prefix

namespace Net

/-- A negative result of `memcmp` on as many bytes. -/
def memcmpLess : Bytes → Bytes → Bool
  | a :: lhs, b :: rhs => if a = b then memcmpLess lhs rhs else a < b
  | _, _ => false

namespace Address

/-- `operator<`. -/
def less (a b : Address) : Bool :=
  if a.getFamily ≠ b.getFamily then a.getFamily < b.getFamily
  else if a.getAddrLen ≠ b.getAddrLen then a.getAddrLen < b.getAddrLen
  else memcmpLess (a.getAddr.take a.getAddrLen) (b.getAddr.take a.getAddrLen)

end Address

/-- An address whose length does not exceed the memory that `getAddr` leads to. -/
structure StoredAddress where
  address : Address
  stored : address.getAddrLen ≤ address.getAddr.length

/-- All addresses that `Address::Create` makes are of this kind. -/
theorem stored_create {memory : Option Bytes} {length : ℕ} {a : Address}
    (h : Address.create memory length = some a) : a.getAddrLen ≤ a.getAddr.length := by
  cases memory with
  | none => exact absurd h (by simp [Address.create])
  | some memory =>
    rw [Address.create] at h
    split at h
    · exact absurd h (by simp)
    · dsimp only at h
      split at h
      · obtain rfl := Option.some_inj.mp h
        simp [Address.getAddrLen, Address.getAddr, IPv4Address.getAddr, familyBytes]
      · split at h
        · obtain rfl := Option.some_inj.mp h
          simp [Address.getAddrLen, Address.getAddr, IPv6Address.getAddr, familyBytes]
        · split at h
          · obtain rfl := Option.some_inj.mp h
            simp [Address.getAddrLen, Address.getAddr, UnixAddress.getAddr, familyBytes,
              UnixAddress.ofSockaddr]
          · obtain rfl := Option.some_inj.mp h
            simp [Address.getAddrLen, Address.getAddr, UnknownAddress.ofSockaddr]

/-- **`memcmp`** on byte strings of one length. -/
theorem memcmpLess_iff {lhs rhs : Bytes} (h : lhs.length = rhs.length) :
    memcmpLess lhs rhs = true ↔ bigEndian lhs < bigEndian rhs := by
  induction lhs generalizing rhs with
  | nil =>
    obtain rfl := List.length_eq_zero_iff.mp h.symm
    simp [memcmpLess]
  | cons a lhs ih =>
    cases rhs with
    | nil => exact absurd h (by simp)
    | cons b rhs =>
      have hlength : lhs.length = rhs.length := Nat.succ.inj h
      have hpow : (256 : ℕ) ^ lhs.length = 2 ^ (8 * lhs.length) := by
        rw [Nat.pow_mul]
      have hlhs := bigEndian_lt lhs
      have hrhs := bigEndian_lt rhs
      rw [← hlength] at hrhs
      rw [memcmpLess, bigEndian_cons, bigEndian_cons, ← hlength, hpow]
      by_cases hab : a = b
      · rw [if_pos hab, hab, ih hlength]
        exact (Nat.add_lt_add_iff_left).symm
      · -- what is behind the first byte is less than one of it
        rw [if_neg hab, decide_eq_true_iff, UInt8.lt_iff_toNat_lt]
        have hne : a.toNat ≠ b.toNat := fun heq => hab (UInt8.toNat_inj.mp heq)
        constructor
        · intro hlt
          have hstep := Nat.mul_le_mul_right (2 ^ (8 * lhs.length)) hlt
          rw [Nat.succ_mul] at hstep
          omega
        · intro hlt
          by_contra hge
          have hstep := Nat.mul_le_mul_right (2 ^ (8 * lhs.length))
            (show b.toNat + 1 ≤ a.toNat by omega)
          rw [Nat.succ_mul] at hstep
          omega

namespace StoredAddress

variable {a b c : StoredAddress}

def less (a b : StoredAddress) : Bool := a.address.less b.address

def equals (a b : StoredAddress) : Bool := a.address.equals b.address

/-- What is compared, in the order of the comparisons. -/
def key (a : StoredAddress) : ℤ ×ₗ (ℕ ×ₗ ℕ) :=
  toLex (a.address.getFamily, toLex (a.address.getAddrLen,
    bigEndian (a.address.getAddr.take a.address.getAddrLen)))

theorem length_take (a : StoredAddress) :
    (a.address.getAddr.take a.address.getAddrLen).length = a.address.getAddrLen := by
  rw [List.length_take, Nat.min_eq_left a.stored]

theorem less_iff : a.less b = true ↔ a.key < b.key := by
  rw [key, key, Prod.Lex.toLex_lt_toLex, Prod.Lex.toLex_lt_toLex, less, Address.less]
  by_cases hfamily : a.address.getFamily = b.address.getFamily
  · by_cases hlength : a.address.getAddrLen = b.address.getAddrLen
    · have hlengths : (a.address.getAddr.take a.address.getAddrLen).length =
          (b.address.getAddr.take b.address.getAddrLen).length := by
        rw [length_take, length_take, hlength]
      have hbytes := memcmpLess_iff hlengths
      rw [if_neg (not_not.mpr hfamily), if_neg (not_not.mpr hlength), hlength]
      rw [hlength] at hbytes
      simp [hfamily, hbytes]
    · rw [if_neg (not_not.mpr hfamily), if_pos hlength, decide_eq_true_iff]
      simp [hfamily, hlength]
  · rw [if_pos hfamily, decide_eq_true_iff]
    simp [hfamily]

theorem equals_iff : a.equals b = true ↔ a.key = b.key := by
  rw [key, key, toLex_inj, Prod.mk.injEq, toLex_inj, Prod.mk.injEq, equals, Address.equals,
    Bool.and_eq_true, Bool.and_eq_true, beq_iff_eq, beq_iff_eq, beq_iff_eq, and_assoc]
  refine and_congr_right fun _ => and_congr_right fun hlength => ?_
  have hsame : (a.address.getAddr.take a.address.getAddrLen).length =
      (b.address.getAddr.take b.address.getAddrLen).length := by
    rw [length_take, length_take, hlength]
  rw [bigEndian_inj hsame, hlength]

/-- **Order**: `operator<` is a strict weak order of the addresses, for which exactly those are
alike that `operator==` says are equal. -/
theorem less_strictWeakOrder :
    IsStrictWeakOrder StoredAddress (fun a b => a.less b = true) ∧
      ∀ a b : StoredAddress, a.equals b = true ↔ a.less b = false ∧ b.less a = false := by
  have hequals : ∀ a b : StoredAddress,
      a.equals b = true ↔ a.less b = false ∧ b.less a = false := by
    intro a b
    rw [equals_iff, ← Bool.not_eq_true, ← Bool.not_eq_true, less_iff, less_iff, not_lt, not_lt]
    exact ⟨fun h => ⟨h.ge, h.le⟩, fun h => le_antisymm h.2 h.1⟩
  have halike : ∀ a b : StoredAddress,
      (¬ a.less b = true ∧ ¬ b.less a = true) ↔ a.equals b = true := by
    intro a b
    rw [hequals, Bool.not_eq_true, Bool.not_eq_true]
  refine ⟨{ irrefl := fun a h => ?_, trans := fun a b c hab hbc => ?_,
            incomp_trans := fun a b c hab hbc => ?_ }, hequals⟩
  · exact lt_irrefl _ (less_iff.mp h)
  · exact less_iff.mpr ((less_iff.mp hab).trans (less_iff.mp hbc))
  · rw [halike, equals_iff] at hab hbc ⊢
    exact hab.trans hbc

/-- An IPv4 address from a number and a port. -/
def ofHost (address : UInt32) (port : UInt16) : StoredAddress :=
  ⟨.ipv4 (.ofHost address port), Nat.le_refl 16⟩

/-- The bytes of such an address: the family, the port, the address, and zeros. -/
theorem bigEndian_ofHost (address : UInt32) (port : UInt16) :
    bigEndian ((ofHost address port).address.getAddr.take 16) =
      2 * 2 ^ 120 + port.toNat * 2 ^ 96 + address.toNat * 2 ^ 64 := by
  have hbytes : (ofHost address port).address.getAddr.take 16 =
      [2, 0, UInt8.ofNat (port.toNat / 2 ^ 8), UInt8.ofNat port.toNat,
        UInt8.ofNat (address.toNat / 2 ^ 24), UInt8.ofNat (address.toNat / 2 ^ 16),
        UInt8.ofNat (address.toNat / 2 ^ 8), UInt8.ofNat address.toNat, 0, 0, 0, 0, 0, 0, 0, 0] := by
    have hzero : (zeroed 8 []).toList = [0, 0, 0, 0, 0, 0, 0, 0] := by decide
    show (familyBytes 2 ++ (htons port).toList ++ (htonl address).toList ++
      (zeroed 8 []).toList).take 16 = _
    rw [hzero]
    rfl
  have hport := port.toNat_lt
  have haddress := address.toNat_lt
  rw [hbytes]
  simp only [bigEndian, List.foldl_cons, List.foldl_nil, UInt8.toNat_ofNat']
  simp only [UInt8.toNat_ofNat]
  omega

/-- **Ports first**: the order of IPv4 addresses is that of their ports and then of their numbers. -/
theorem less_ofHost (address address' : UInt32) (port port' : UInt16) :
    (ofHost address port).less (ofHost address' port') = true ↔
      port < port' ∨ port = port' ∧ address < address' := by
  have haddress := address.toNat_lt
  have haddress' := address'.toNat_lt
  rw [less_iff, key, key, Prod.Lex.toLex_lt_toLex, Prod.Lex.toLex_lt_toLex]
  show (_ ∨ _ ∧ (_ ∨ _ ∧ bigEndian ((ofHost address port).address.getAddr.take 16) <
    bigEndian ((ofHost address' port').address.getAddr.take 16))) ↔ _
  rw [bigEndian_ofHost, bigEndian_ofHost, UInt16.lt_iff_toNat_lt, UInt32.lt_iff_toNat_lt,
    ← UInt16.toNat_inj]
  simp only [ofHost, Address.getFamily, Address.getAddrLen, lt_irrefl, true_and, false_or]
  omega

end StoredAddress

end Net
