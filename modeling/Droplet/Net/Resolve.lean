/-
Hosts and services.

`Address::Lookup` cuts a text into the two and asks `getaddrinfo`, which is a parameter, as is
`inet_ntop` of IPv6.  `Uri::createAddress` looks up the host of a URI and sets its port.

* `splitHostService_brackets`, `splitHostService_colon`, `splitHostService_other` — where the text
  is cut;
* `split_toString` — a printed address is cut into the address and its port;
* `createAddress_iff` — what `createAddress` asks for, and what it makes of the answer.
-/
import Droplet.Http.UriRoundTrip
import Droplet.Net.IPPrefix

open Http Search

namespace Net

def afUnspec : ℤ := 0

def sockStream : ℤ := 1

/-- `getaddrinfo` by node, service, family, type and protocol: an error, or what its results point
to and how long they are. -/
abbrev GetAddrInfo :=
  Option Bytes → Option Bytes → ℤ → ℤ → ℤ → Option (List (Option Bytes × ℕ))

/-- The split at a colon, if there is one only. -/
def splitColon (host : Bytes) : Bytes × Bytes :=
  let firstColon := find [58] host 0
  let lastColon := Uri.rfind 58 host
  match firstColon with
  | none => (host, [])
  | some colon =>
    if lastColon = some colon then (host.take colon, host.drop (colon + 1)) else (host, [])

/-- `SplitHostService`. -/
def splitHostService (host : Bytes) : Bytes × Bytes :=
  if host.head? = some 91 then
    match find [93] host 0 with
    | some close =>
      (substr host 1 (close - 1), if host[close + 1]? = some 58 then host.drop (close + 2) else [])
    | none => splitColon host
  else splitColon host

/-- What is passed of a string: nothing, or what its `c_str` points to. -/
def query (text : Bytes) : Option Bytes :=
  if text.isEmpty then none else some (text.takeWhile (· != 0))

namespace Address

/-- `Lookup`, with the addresses that are there already. -/
def lookup (getaddrinfo : GetAddrInfo) (result : List Address) (host : Bytes)
    (family type protocol : ℤ) : Bool × List Address :=
  let (node, service) := splitHostService host
  match getaddrinfo (query node) (query service) family type protocol with
  | none => (false, result)
  | some results =>
    let result := result ++ results.filterMap fun (address, length) =>
      if address.isSome && 0 < length then create address length else none
    (!result.isEmpty, result)

/-- `dynamic_pointer_cast` to `IPAddress`. -/
def toIP? : Address → Option IPAddress
  | ipv4 a => some (.ipv4 a)
  | ipv6 a => some (.ipv6 a)
  | unix _ | unknown _ => none

/-- `LookupAny`. -/
def lookupAny (getaddrinfo : GetAddrInfo) (host : Bytes) (family type protocol : ℤ) :
    Option Address :=
  let (found, result) := lookup getaddrinfo [] host family type protocol
  if found then result.head? else none

/-- `LookupAnyIPAddress`. -/
def lookupAnyIPAddress (getaddrinfo : GetAddrInfo) (host : Bytes) (family type protocol : ℤ) :
    Option IPAddress :=
  let (found, result) := lookup getaddrinfo [] host family type protocol
  if found then result.findSome? toIP? else none

end Address

namespace IPAddress

def setPort (a : IPAddress) (port : UInt16) : IPAddress :=
  match a with
  | ipv4 a => .ipv4 { a with sinPort := htons port }
  | ipv6 a => .ipv6 { a with sin6Port := htons port }

/-- `inet_ntop` of an IPv4 address. -/
def dottedDecimal (bytes : Vector UInt8 4) : Bytes :=
  decimal bytes[0].toNat ++ 46 :: decimal bytes[1].toNat ++ 46 :: decimal bytes[2].toNat ++
    46 :: decimal bytes[3].toNat

/-- `toString`, by `insert`; `inetNtop` is that of the 16 bytes of an IPv6 address. -/
def toString (inetNtop : Bytes → Option Bytes) : IPAddress → Bytes
  | ipv4 a => dottedDecimal a.sinAddr ++ 58 :: decimal a.getPort.toNat
  | ipv6 a =>
    match inetNtop a.sin6Addr.toList with
    | none => ascii "<invalid-ipv6>"
    | some buffer => 91 :: buffer ++ 93 :: 58 :: decimal a.getPort.toNat

/-- The text of the address without its port. -/
def host? (inetNtop : Bytes → Option Bytes) : IPAddress → Option Bytes
  | ipv4 a => some (dottedDecimal a.sinAddr)
  | ipv6 a => inetNtop a.sin6Addr.toList

end IPAddress

/-- `Uri::createAddress`. -/
def createAddress (getaddrinfo : GetAddrInfo) (uri : Uri) : Option IPAddress :=
  if uri.host.isEmpty then none
  else
    let address := Address.lookupAnyIPAddress getaddrinfo uri.host afUnspec sockStream 0
    let port := uri.getPort
    if address.isNone ∨ port < 0 ∨ port > 2 ^ 16 - 1 then none
    else address.map fun address => address.setPort (UInt16.ofNat port.toNat)

/-! ### Where a text is cut -/

variable {host node service : Bytes}

theorem splitColon_none (h : 58 ∉ host) : splitColon host = (host, []) := by
  rw [splitColon, find_single_eq_none_iff.mpr h]

/-- One colon. -/
theorem splitColon_one (hnode : 58 ∉ node) (hservice : 58 ∉ service) :
    splitColon (node ++ 58 :: service) = (node, service) := by
  have hfind : find [58] (node ++ 58 :: service) 0 = some node.length :=
    find_single_iff.mpr ⟨node, service, rfl, hnode, rfl⟩
  rw [splitColon, hfind, Uri.rfind_append hservice]
  show (if some node.length = some node.length then _ else _) = _
  rw [if_pos rfl, List.take_left, List.drop_append, Nat.add_sub_cancel_left,
    List.drop_eq_nil_of_le (Nat.le_succ _)]
  rfl

/-- More of them. -/
theorem splitColon_two {middle : Bytes} (hnode : 58 ∉ node) (hservice : 58 ∉ service) :
    splitColon (node ++ 58 :: (middle ++ 58 :: service)) =
      (node ++ 58 :: (middle ++ 58 :: service), []) := by
  have hfind : find [58] (node ++ 58 :: (middle ++ 58 :: service)) 0 = some node.length :=
    find_single_iff.mpr ⟨node, _, rfl, hnode, rfl⟩
  have hlast : Uri.rfind 58 (node ++ 58 :: (middle ++ 58 :: service)) =
      some (node ++ 58 :: middle).length := by
    rw [← Uri.rfind_append hservice, List.append_assoc]
    rfl
  rw [splitColon, hfind, hlast]
  refine if_neg fun heq => ?_
  have hlength := Option.some_inj.mp heq
  rw [List.length_append, List.length_cons] at hlength
  omega

/-- In brackets. -/
theorem splitHostService_brackets (hnode : 93 ∉ node) :
    splitHostService (91 :: node ++ 93 :: 58 :: service) = (node, service) := by
  have hfind : find [93] (91 :: node ++ 93 :: 58 :: service) 0 = some (node.length + 1) := by
    refine find_single_iff.mpr ⟨91 :: node, 58 :: service, rfl, ?_, rfl⟩
    rw [List.mem_cons, not_or]
    exact ⟨by decide, hnode⟩
  have hcolon : (91 :: node ++ 93 :: 58 :: service)[node.length + 1 + 1]? = some 58 := by
    have hone : node.length + 1 - node.length = 1 := by omega
    rw [List.cons_append, List.getElem?_cons_succ, List.getElem?_append_right (Nat.le_succ _), hone]
    rfl
  have hdrop : (91 :: node ++ 93 :: 58 :: service).drop (node.length + 1 + 2) = service := by
    have htwo : node.length + 2 - node.length = 2 := by omega
    rw [List.cons_append, List.drop_succ_cons, List.drop_append, List.drop_eq_nil_of_le (by omega)]
    show (93 :: 58 :: service).drop (node.length + 2 - node.length) = service
    rw [htwo]
    rfl
  have hsubstr : substr (91 :: node ++ 93 :: 58 :: service) 1 (node.length + 1 - 1) = node := by
    rw [substr, List.cons_append, List.drop_succ_cons, List.drop_zero, Nat.add_sub_cancel,
      List.take_left]
  have hhead : (91 :: node ++ 93 :: 58 :: service).head? = some 91 := rfl
  rw [splitHostService, if_pos hhead, hfind]
  show (substr _ 1 (node.length + 1 - 1), if _ then _ else _) = _
  rw [hsubstr, if_pos hcolon, hdrop]

/-- Without brackets around it. -/
theorem splitHostService_plain (hclose : 93 ∉ host) : splitHostService host = splitColon host := by
  rw [splitHostService, find_single_eq_none_iff.mpr hclose]
  split
  · rfl
  · rfl

/-- How often the text has a colon. -/
theorem split_cases (host : Bytes) : 58 ∉ host ∨
    (∃ node service, host = node ++ 58 :: service ∧ 58 ∉ node ∧ 58 ∉ service) ∨
    ∃ node middle service, host = node ++ 58 :: (middle ++ 58 :: service) ∧ 58 ∉ node ∧
      58 ∉ service := by
  by_cases hmem : 58 ∈ host
  · obtain ⟨node, rest, rfl, hnode⟩ := List.eq_append_cons_of_mem hmem
    rcases Uri.exists_last 58 rest with hnot | ⟨middle, service, rfl, hservice⟩
    · exact .inr (.inl ⟨node, rest, rfl, hnode, hnot⟩)
    · exact .inr (.inr ⟨node, middle, service, rfl, hnode, hservice⟩)
  · exact .inl hmem

/-- Unless it has one colon, a text without brackets is a host. -/
theorem splitColon_host (h : ∀ node service, host = node ++ 58 :: service → 58 ∉ node →
    58 ∈ service) : splitColon host = (host, []) := by
  rcases split_cases host with hnone | ⟨node, service, rfl, hnode, hservice⟩ |
    ⟨node, middle, service, rfl, hnode, hservice⟩
  · exact splitColon_none hnone
  · exact absurd (h node service rfl hnode) hservice
  · exact splitColon_two hnode hservice

/-! ### Printed addresses -/

theorem digit_of_mem_decimal {n : ℕ} {b : UInt8} (h : b ∈ decimal n) : 48 ≤ b ∧ b ≤ 57 := by
  obtain ⟨d, hd, rfl⟩ := exists_of_mem_decimal h
  interval_cases d <;> decide

theorem mem_dottedDecimal {bytes : Vector UInt8 4} {b : UInt8}
    (h : b ∈ IPAddress.dottedDecimal bytes) : b = 46 ∨ 48 ≤ b ∧ b ≤ 57 := by
  simp only [IPAddress.dottedDecimal, List.mem_append, List.mem_cons] at h
  rcases h with ((h | h | h) | h | h) | h | h
  · exact .inr (digit_of_mem_decimal h)
  · exact .inl h
  · exact .inr (digit_of_mem_decimal h)
  · exact .inl h
  · exact .inr (digit_of_mem_decimal h)
  · exact .inl h
  · exact .inr (digit_of_mem_decimal h)

/-- **Printed addresses**: the text of an IP address is cut into the address and its port. -/
theorem split_toString (inetNtop : Bytes → Option Bytes)
    (hntop : ∀ bytes text, inetNtop bytes = some text → 93 ∉ text) (a : IPAddress) {text : Bytes}
    (htext : a.host? inetNtop = some text) :
    splitHostService (a.toString inetNtop) = (text, decimal a.getPort.toNat) := by
  cases a with
  | ipv4 a =>
    obtain rfl := Option.some_inj.mp htext
    have hport : ∀ b : UInt8, ¬(48 ≤ b ∧ b ≤ 57) → b ∉ decimal a.getPort.toNat :=
      fun b hb hmem => hb (digit_of_mem_decimal hmem)
    have hhost : ∀ b : UInt8, ¬(b = 46 ∨ 48 ≤ b ∧ b ≤ 57) → b ∉ IPAddress.dottedDecimal a.sinAddr :=
      fun b hb hmem => hb (mem_dottedDecimal hmem)
    have hclose : (93 : UInt8) ∉ IPAddress.dottedDecimal a.sinAddr ++
        58 :: decimal a.getPort.toNat := by
      rw [List.mem_append, List.mem_cons, not_or, not_or]
      exact ⟨hhost 93 (by decide), by decide, hport 93 (by decide)⟩
    show splitHostService (IPAddress.dottedDecimal a.sinAddr ++ 58 :: decimal a.getPort.toNat) = _
    rw [splitHostService_plain hclose,
      splitColon_one (hhost 58 (by decide)) (hport 58 (by decide))]
    rfl
  | ipv6 a =>
    have hbuffer : inetNtop a.sin6Addr.toList = some text := htext
    have hprint : (IPAddress.ipv6 a).toString inetNtop =
        91 :: text ++ 93 :: 58 :: decimal a.getPort.toNat := by
      rw [IPAddress.toString, hbuffer]
    rw [hprint, splitHostService_brackets (hntop _ _ hbuffer)]
    rfl

/-- The loopback address of IPv6. -/
theorem split_toString_loopback :
    splitHostService ((IPAddress.ipv6 (.ofMemory ([10, 0, 0x1F, 0x90] ++ List.replicate 19 0 ++
      [1]))).toString fun _ => some (ascii "::1")) = (ascii "::1", ascii "8080") :=
  split_toString (fun _ => some (ascii "::1"))
    (fun bytes text h => Option.some_inj.mp h ▸ by decide) _ rfl

/-! ### The address of a URI -/

/-- What `getaddrinfo` is asked for a host. -/
structure Asks (host : Bytes) (node service : Option Bytes) : Prop where
  whole : (∀ name port, host = name ++ 58 :: port → 58 ∉ name → 58 ∈ port) →
    node = some host ∧ service = none
  split : ∀ name port, host = name ++ 58 :: port → 58 ∉ name → 58 ∉ port →
    node = query name ∧ service = query port

/-- The first of the results that is an IP address. -/
def firstIP (results : List (Option Bytes × ℕ)) : Option IPAddress :=
  results.findSome? fun (address, length) =>
    if address.isSome && 0 < length then (Address.create address length).bind Address.toIP? else none

theorem lookupAnyIPAddress_eq (getaddrinfo : GetAddrInfo) (host : Bytes)
    (family type protocol : ℤ) :
    Address.lookupAnyIPAddress getaddrinfo host family type protocol =
      (getaddrinfo (query (splitHostService host).1) (query (splitHostService host).2) family type
        protocol).bind firstIP := by
  rw [Address.lookupAnyIPAddress, Address.lookup]
  dsimp only
  cases getaddrinfo (query (splitHostService host).1) (query (splitHostService host).2) family type
      protocol with
  | none => rfl
  | some results =>
    obtain ⟨found, hfound⟩ : ∃ found, found = results.filterMap
        fun (entry : Option Bytes × ℕ) =>
          if entry.1.isSome && 0 < entry.2 then Address.create entry.1 entry.2 else none := ⟨_, rfl⟩
    have hfirst : firstIP results = found.findSome? Address.toIP? := by
      rw [firstIP, ← List.head?_filterMap, ← List.head?_filterMap, hfound, List.filterMap_filterMap]
      congr 2
      funext entry
      dsimp only
      split
      · rfl
      · rfl
    rw [Option.bind_some, hfirst]
    show (if (!([] ++ results.filterMap _).isEmpty) = true then
      ([] ++ results.filterMap _).findSome? Address.toIP? else none) = _
    rw [List.nil_append, ← hfound]
    cases found with
    | nil => rfl
    | cons first rest => rfl

theorem query_eq (hnil : host ≠ []) (hzero : 0 ∉ host) : query host = some host := by
  have hwhole : host.takeWhile (· != 0) = host := by
    rw [List.takeWhile_eq_self_iff]
    intro b hb
    rw [bne_iff_ne]
    exact fun heq => hzero (heq ▸ hb)
  rw [query, if_neg (by rwa [List.isEmpty_iff]), hwhole]

/-- A host that is not in brackets determines what is asked. -/
theorem asks_iff (hnil : host ≠ []) (hclose : 93 ∉ host) (hzero : 0 ∉ host)
    {node service : Option Bytes} : Asks host node service ↔
      node = query (splitHostService host).1 ∧ service = query (splitHostService host).2 := by
  rw [splitHostService_plain hclose]
  have hwhole : splitColon host = (host, []) → ∀ {node service : Option Bytes},
      node = query (splitColon host).1 ∧ service = query (splitColon host).2 ↔
        node = some host ∧ service = none := by
    intro heq node service
    rw [heq, query_eq hnil hzero]
    rfl
  rcases split_cases host with hnone | ⟨name, port, heq, hname, hport⟩ |
    ⟨name, middle, port, heq, hname, hport⟩
  · rw [hwhole (splitColon_none hnone)]
    have hno : ∀ name port : Bytes, host ≠ name ++ 58 :: port := fun name port heq =>
      hnone (heq ▸ List.mem_append_right _ List.mem_cons_self)
    exact ⟨fun h => h.whole fun name port heq => absurd heq (hno name port),
      fun h => ⟨fun _ => h, fun name port heq => absurd heq (hno name port)⟩⟩
  · -- two cuts at a first colon are one
    have hcut : ∀ name' port' : Bytes, host = name' ++ 58 :: port' → 58 ∉ name' →
        name' = name ∧ port' = port := by
      intro name' port' heq' hname'
      have hlength : name'.length = name.length := by
        have hfind := find_single_iff.mpr ⟨name', port', heq', hname', rfl⟩
        have hfind' := find_single_iff.mpr ⟨name, port, heq, hname, rfl⟩
        exact Option.some_inj.mp (hfind.symm.trans hfind')
      obtain ⟨hleft, hright⟩ := List.append_inj (heq'.symm.trans heq) hlength
      exact ⟨hleft, (List.cons.inj hright).2⟩
    rw [heq, splitColon_one hname hport]
    refine ⟨fun h => h.split name port rfl hname hport, fun h => ⟨fun hall => ?_, ?_⟩⟩
    · exact absurd (hall name port rfl hname) hport
    · intro name' port' heq' hname' _
      obtain ⟨rfl, rfl⟩ := hcut name' port' (heq.trans heq') hname'
      exact h
  · have hmore : ∀ name' port' : Bytes, host = name' ++ 58 :: port' → 58 ∉ name' → 58 ∈ port' := by
      intro name' port' heq' hname'
      have hlength : name'.length = name.length := by
        have hfind := find_single_iff.mpr ⟨name', port', heq', hname', rfl⟩
        have hfind' := find_single_iff.mpr ⟨name, _, heq, hname, rfl⟩
        exact Option.some_inj.mp (hfind.symm.trans hfind')
      obtain ⟨-, hright⟩ := List.append_inj (heq'.symm.trans heq) hlength
      rw [(List.cons.inj hright).2]
      exact List.mem_append_right _ List.mem_cons_self
    rw [hwhole (splitColon_host hmore)]
    exact ⟨fun h => h.whole hmore, fun h => ⟨fun _ => h, fun name' port' heq' hname' hnot =>
      absurd (hmore name' port' heq' hname') hnot⟩⟩

theorem getPort_le {uri : Uri} (h : uri.WellFormed) : uri.getPort ≤ 2 ^ 16 - 1 := by
  have hport := h.port
  rw [Uri.getPort]
  split
  · omega
  · split
    · omega
    · split
      · omega
      · omega

/-- **The address of a URI**: `createAddress` asks for the host as it is, unless it has one colon
only, and gives the first IP address of the answer the port of the URI. -/
theorem createAddress_iff (getaddrinfo : GetAddrInfo) {text : Bytes} {uri : Uri}
    (h : Uri.create text = some uri) {a : IPAddress} :
    createAddress getaddrinfo uri = some a ↔ uri.host ≠ [] ∧
      ∃ (node service : Option Bytes) (results : List (Option Bytes × ℕ)) (b : IPAddress)
        (port : UInt16), Asks uri.host node service ∧
        getaddrinfo node service afUnspec sockStream 0 = some results ∧ firstIP results = some b ∧
        (port.toNat : ℤ) = uri.getPort ∧ a = b.setPort port := by
  obtain ⟨hvisible, hsub, -⟩ := Uri.create_spec h
  have hwell := (Uri.create_eq_some_iff.mp h).2.wellFormed
  have hclose : 93 ∉ uri.host := hwell.host.2.2.2.2
  have hzero : 0 ∉ uri.host := fun hmem => absurd (hvisible 0 (hsub hmem)).1 (by decide)
  have hport := getPort_le hwell
  rw [createAddress, lookupAnyIPAddress_eq]
  by_cases hnil : uri.host = []
  · rw [if_pos (by rw [hnil]; rfl)]
    exact ⟨fun h => absurd h (by simp), fun h => absurd hnil h.1⟩
  rw [if_neg (by rwa [List.isEmpty_iff])]
  obtain ⟨node, hnode⟩ : ∃ node, node = query (splitHostService uri.host).1 := ⟨_, rfl⟩
  obtain ⟨service, hservice⟩ : ∃ service, service = query (splitHostService uri.host).2 := ⟨_, rfl⟩
  have hasks : Asks uri.host node service := (asks_iff hnil hclose hzero).mpr ⟨hnode, hservice⟩
  rw [← hnode, ← hservice]
  dsimp only
  constructor
  · intro hsome
    split at hsome
    · exact absurd hsome (by simp)
    · next hno =>
      rw [not_or, not_or] at hno
      obtain ⟨b, hb, rfl⟩ := Option.map_eq_some_iff.mp hsome
      obtain ⟨results, hresults, hfirst⟩ := Option.bind_eq_some_iff.mp hb
      refine ⟨hnil, node, service, results, b, _, hasks, hresults, hfirst, ?_, rfl⟩
      rw [UInt16.toNat_ofNat']
      omega
  · rintro ⟨-, node', service', results, b, port, hasks', hresults, hfirst, hequal, rfl⟩
    obtain ⟨rfl, rfl⟩ : node' = node ∧ service' = service := by
      have hboth := (asks_iff hnil hclose hzero).mp hasks'
      exact ⟨hboth.1.trans hnode.symm, hboth.2.trans hservice.symm⟩
    have hlt := port.toNat_lt
    have hsame : UInt16.ofNat uri.getPort.toNat = port := by
      rw [← hequal, Int.toNat_natCast, UInt16.ofNat_toNat]
    rw [hresults, Option.bind_some, hfirst, if_neg, Option.map_some, hsame]
    rw [not_or, not_or, ← hequal]
    exact ⟨by simp, by omega, by omega⟩

/-- The host of an accepted text, with the port of its scheme. -/
theorem createAddress_iff_loopback :
    createAddress (fun _ _ _ _ _ => some [(some ([2, 0, 0, 0, 127, 0, 0, 1] ++ List.replicate 8 0),
      16)]) ⟨ascii "http", [], ascii "localhost", [], [], [], -1, true⟩ =
        some (.ipv4 (.ofHost 0x7F000001 80)) := by
  have hcreate : Uri.create (ascii "http://localhost") =
      some ⟨ascii "http", [], ascii "localhost", [], [], [], -1, true⟩ := by decide +kernel
  refine (createAddress_iff _ hcreate).mpr ⟨by decide, some (ascii "localhost"), none, _,
    .ipv4 (.ofHost 0x7F000001 0), 80, ?_, rfl, by decide +kernel, by decide +kernel,
    by decide +kernel⟩
  exact (asks_iff (by decide) (by decide) (by decide)).mpr ⟨by decide +kernel, by decide +kernel⟩

end Net
