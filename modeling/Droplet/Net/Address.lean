/-
Network addresses.

The classes of addresses keep a socket address as the kernel has it, so that they are given
here with their memory: `getAddr` are the bytes of the object, of which the first `getAddrLen`
make up the address.  Numbers of several bytes are in network order, the family alone is in
the order of the host.

* `Address.create` — the class that the family asks for;
* `IPv4Address`, `IPv6Address` — masks, networks and broadcast addresses of prefixes;
* `UnixAddress` — the path of a socket, in its own string and in `sun_path`.
-/
import Droplet.Http.Text
import Droplet.Lib.Prefix

open Http Prefix

namespace Net

def afUnix : ℤ := 1

def afInet : ℤ := 2

def afInet6 : ℤ := 10

/-! ### Memory -/

/-- Memory that is zero but for what is copied to its beginning. -/
def zeroed (n : ℕ) (data : Bytes) : Vector UInt8 n := Vector.ofFn fun i => data.getD i 0

/-- The bytes of a member. -/
def member (memory : Bytes) (offset n : ℕ) : Vector UInt8 n :=
  Vector.ofFn fun i => memory.getD (offset + i) 0

/-- A `sa_family_t` in memory. -/
def familyBytes (family : UInt16) : Bytes :=
  [UInt8.ofNat family.toNat, UInt8.ofNat (family.toNat / 256)]

def saFamily (memory : Bytes) : UInt16 :=
  UInt16.ofNat ((memory.getD 0 0).toNat + (memory.getD 1 0).toNat * 256)

def ntohs (bytes : Vector UInt8 2) : UInt16 := UInt16.ofNat (bigEndian bytes.toList)

def htons (value : UInt16) : Vector UInt8 2 :=
  #v[UInt8.ofNat (value.toNat / 2 ^ 8), UInt8.ofNat value.toNat]

def ntohl (bytes : Vector UInt8 4) : UInt32 := UInt32.ofNat (bigEndian bytes.toList)

def htonl (value : UInt32) : Vector UInt8 4 :=
  #v[UInt8.ofNat (value.toNat / 2 ^ 24), UInt8.ofNat (value.toNat / 2 ^ 16),
    UInt8.ofNat (value.toNat / 2 ^ 8), UInt8.ofNat value.toNat]

/-! ### IPv4 -/

/-- An address with its `sockaddr_in`. -/
structure IPv4Address where
  sinFamily : UInt16
  sinPort : Vector UInt8 2
  sinAddr : Vector UInt8 4
  sinZero : Vector UInt8 8
  deriving DecidableEq

namespace IPv4Address

/-- The constructor that takes the address in host order. -/
def ofHost (address : UInt32) (port : UInt16) : IPv4Address where
  sinFamily := 2
  sinPort := htons port
  sinAddr := htonl address
  sinZero := zeroed 8 []

/-- The object that `sockaddr_in` is at the beginning of this memory. -/
def ofMemory (memory : Bytes) : IPv4Address where
  sinFamily := saFamily memory
  sinPort := member memory 2 2
  sinAddr := member memory 4 4
  sinZero := member memory 8 8

def getAddr (a : IPv4Address) : Bytes :=
  familyBytes a.sinFamily ++ a.sinPort.toList ++ a.sinAddr.toList ++ a.sinZero.toList

def getPort (a : IPv4Address) : UInt16 := ntohs a.sinPort

/-- The mask that all three functions begin with. -/
def prefixMask (prefixLength : ℕ) : UInt32 :=
  if prefixLength = 0 then 0 else 0xffffffff <<< UInt32.ofNat (32 - prefixLength)

def broadcastAddress (a : IPv4Address) (prefixLength : ℕ) : Option IPv4Address :=
  if 32 < prefixLength then none
  else some (ofHost (ntohl a.sinAddr ||| ~~~prefixMask prefixLength) a.getPort)

def networkAddress (a : IPv4Address) (prefixLength : ℕ) : Option IPv4Address :=
  if 32 < prefixLength then none
  else some (ofHost (ntohl a.sinAddr &&& prefixMask prefixLength) a.getPort)

def subnetMask (prefixLength : ℕ) : Option IPv4Address :=
  if 32 < prefixLength then none
  else some ⟨2, zeroed 2 [], htonl (prefixMask prefixLength), zeroed 8 []⟩

end IPv4Address

/-! ### IPv6 -/

/-- An address with its `sockaddr_in6`. -/
structure IPv6Address where
  sin6Family : UInt16
  sin6Port : Vector UInt8 2
  sin6Flowinfo : Vector UInt8 4
  sin6Addr : Vector UInt8 16
  sin6ScopeId : Vector UInt8 4
  deriving DecidableEq

namespace IPv6Address

def ofMemory (memory : Bytes) : IPv6Address where
  sin6Family := saFamily memory
  sin6Port := member memory 2 2
  sin6Flowinfo := member memory 4 4
  sin6Addr := member memory 8 16
  sin6ScopeId := member memory 24 4

def getAddr (a : IPv6Address) : Bytes :=
  familyBytes a.sin6Family ++ a.sin6Port.toList ++ a.sin6Flowinfo.toList ++ a.sin6Addr.toList ++
    a.sin6ScopeId.toList

def getPort (a : IPv6Address) : UInt16 := ntohs a.sin6Port

/-- What a round of the loops writes to byte `i`: the bytes in front of the prefix's end stay,
those behind it are filled, and the one that it falls into is changed in part. -/
def broadcastByte (prefixLength i : ℕ) (byte : UInt8) : UInt8 :=
  let bit := i * 8
  if bit + 8 ≤ prefixLength then byte
  else if prefixLength ≤ bit then 0xff
  else byte ||| UInt8.ofNat (0xff >>> (prefixLength - bit))

def networkByte (prefixLength i : ℕ) (byte : UInt8) : UInt8 :=
  let bit := i * 8
  if bit + 8 ≤ prefixLength then byte
  else if prefixLength ≤ bit then 0
  else byte &&& UInt8.ofNat (0xff <<< (8 - (prefixLength - bit)))

/-- The bytes of the mask are zero before the loop. -/
def maskByte (prefixLength i : ℕ) (byte : UInt8) : UInt8 :=
  let bit := i * 8
  if bit + 8 ≤ prefixLength then 0xff
  else if bit < prefixLength then UInt8.ofNat (0xff <<< (8 - (prefixLength - bit)))
  else byte

def broadcastAddress (a : IPv6Address) (prefixLength : ℕ) : Option IPv6Address :=
  if 128 < prefixLength then none
  else some { a with sin6Addr := a.sin6Addr.mapIdx (broadcastByte prefixLength) }

def networkAddress (a : IPv6Address) (prefixLength : ℕ) : Option IPv6Address :=
  if 128 < prefixLength then none
  else some { a with sin6Addr := a.sin6Addr.mapIdx (networkByte prefixLength) }

def subnetMask (prefixLength : ℕ) : Option IPv6Address :=
  if 128 < prefixLength then none
  else some ⟨10, zeroed 2 [], zeroed 4 [], (zeroed 16 []).mapIdx (maskByte prefixLength),
    zeroed 4 []⟩

end IPv6Address

/-! ### Unix -/

/-- What the constructor throws, or a copy past the end of `sun_path`. -/
inductive PathFault
  | lengthError
  | outOfBounds
  deriving DecidableEq

/-- An address with its `sockaddr_un`, the length of it that is used, and its path. -/
structure UnixAddress where
  sunFamily : UInt16
  sunPath : Vector UInt8 108
  length : ℕ
  path : Bytes
  deriving DecidableEq

/-- A copy into `sun_path`. -/
def copyAt (sunPath : Vector UInt8 108) (offset : ℕ) (data : Bytes) :
    Except PathFault (Vector UInt8 108) :=
  if offset + data.length ≤ 108 then
    .ok (Vector.ofFn fun i =>
      if offset ≤ i then data.getD (i - offset) (sunPath.get i) else sunPath.get i)
  else .error .outOfBounds

namespace UnixAddress

/-- A name in the abstract namespace begins with a zero. -/
def isAbstract (path : Bytes) : Bool := path.head? == some 0

/-- The constructor that takes a path. -/
def ofPath (path : Bytes) : Except PathFault UnixAddress :=
  let abstract := isAbstract path
  if (!abstract && 108 ≤ path.length) || (abstract && 108 < path.length) then .error .lengthError
  else do
    let sunPath ← copyAt (zeroed 108 []) 0 path
    if abstract then return ⟨1, sunPath, 2 + path.length, path⟩
    else
      let sunPath ← copyAt sunPath path.length [0]
      return ⟨1, sunPath, 2 + path.length + 1, path⟩

/-- The constructor that takes a `sockaddr_un`. -/
def ofSockaddr (sunFamily : UInt16) (sunPath : Vector UInt8 108) (length : ℕ) : UnixAddress :=
  let length := min length 110
  let available := if 2 < length then length - 2 else 0
  let used := min available 108
  let used := if 0 < used ∧ sunPath.toList.getD 0 0 ≠ 0 ∧ sunPath.toList.getD (used - 1) 0 = 0
    then used - 1 else used
  ⟨sunFamily, sunPath, length, sunPath.toList.take used⟩

def getAddr (a : UnixAddress) : Bytes := familyBytes a.sunFamily ++ a.sunPath.toList

end UnixAddress

/-! ### All classes -/

/-- An address of any other family, with its `sockaddr_storage`. -/
structure UnknownAddress where
  family : ℤ
  storage : Vector UInt8 128
  length : ℕ
  deriving DecidableEq

namespace UnknownAddress

def ofSockaddr (memory : Bytes) (length : ℕ) : UnknownAddress :=
  let length := min length 128
  ⟨(saFamily memory).toNat, zeroed 128 (memory.take length), length⟩

/-- The constructor that takes a family. -/
def ofFamily (family : ℤ) : UnknownAddress :=
  ⟨family, zeroed 128 (familyBytes (UInt16.ofInt family)), 16⟩

end UnknownAddress

inductive Address
  | ipv4 (address : IPv4Address)
  | ipv6 (address : IPv6Address)
  | unix (address : UnixAddress)
  | unknown (address : UnknownAddress)
  deriving DecidableEq

namespace Address

/-- `Address::Create`, on a pointer to this memory. -/
def create (address : Option Bytes) (length : ℕ) : Option Address :=
  match address with
  | none => none
  | some memory =>
    if length < 2 then none
    else
      let family : ℤ := (saFamily memory).toNat
      if family = afInet ∧ 16 ≤ length then some (.ipv4 (.ofMemory memory))
      else if family = afInet6 ∧ 28 ≤ length then some (.ipv6 (.ofMemory memory))
      else if family = afUnix then
        let value := zeroed 110 (memory.take (min length 110))
        some (.unix (.ofSockaddr (saFamily value.toList) (member value.toList 2 108) length))
      else some (.unknown (.ofSockaddr memory length))

def getFamily : Address → ℤ
  | ipv4 _ => afInet
  | ipv6 _ => afInet6
  | unix _ => afUnix
  | unknown a => a.family

def getAddr : Address → Bytes
  | ipv4 a => a.getAddr
  | ipv6 a => a.getAddr
  | unix a => a.getAddr
  | unknown a => a.storage.toList

def getAddrLen : Address → ℕ
  | ipv4 _ => 16
  | ipv6 _ => 28
  | unix a => a.length
  | unknown a => a.length

/-- `operator==`. -/
def equals (a b : Address) : Bool :=
  a.getFamily == b.getFamily && a.getAddrLen == b.getAddrLen &&
    a.getAddr.take a.getAddrLen == b.getAddr.take a.getAddrLen

theorem equals_self (a : Address) : a.equals a = true := by
  simp only [equals, beq_self_eq_true, Bool.and_self]

end Address

end Net
