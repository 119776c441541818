/-
Paths of Unix sockets.

An address is made of a path, and read back from the memory of its `sockaddr_un` and the length
that is used.  A name that begins with a zero is stored as it is, any other one with a zero
behind it; the reader tells them apart by their first byte.

* `ofPath_eq` — what is stored, and the length above which a path is refused;
* `create_stored` — what the stored form is read back as;
* `survives_iff` — every path but the empty one is read back, which becomes the name of one zero.
-/
import Droplet.Net.Address

open Http Prefix

namespace Net

/-- What `sun_path` has to hold for a path. -/
def stored (path : Bytes) : Bytes :=
  if UnixAddress.isAbstract path then path else path ++ [0]

/-- A path is accepted and read back, or there is no room for it. -/
def Survives (path : Bytes) : Prop :=
  match UnixAddress.ofPath path with
  | .ok u => ∃ a, Address.create (some (Address.unix u).getAddr) (Address.unix u).getAddrLen =
      some (.unix a) ∧ (Address.unix a).equals (.unix u) = true ∧ a.path = path
  | .error .lengthError => 108 < (stored path).length
  | .error .outOfBounds => False

/-! ### Memory -/

variable {n i : ℕ} {path data : Bytes}

theorem getElem_zeroed (data : Bytes) (hi : i < n) : (zeroed n data)[i] = data.getD i 0 :=
  Vector.getElem_ofFn hi

theorem get_zeroed (data : Bytes) (i : Fin n) : (zeroed n data).get i = data.getD i 0 :=
  getElem_zeroed data i.isLt

theorem getD_zeroed (data : Bytes) (hi : i < n) : (zeroed n data).toList.getD i 0 =
    data.getD i 0 := by
  rw [List.getD_eq_getElem _ _ (by rwa [Vector.length_toList]), Vector.getElem_toList,
    getElem_zeroed data hi]

theorem take_zeroed (data : Bytes) (hn : data.length ≤ n) :
    (zeroed n data).toList.take data.length = data := by
  refine List.ext_getElem ?_ fun i hi hdata => ?_
  · rw [List.length_take, Vector.length_toList, Nat.min_eq_left hn]
  · rw [List.getElem_take, Vector.getElem_toList, getElem_zeroed data (by omega),
      List.getD_eq_getElem _ _ hdata]

/-- A copy to the beginning of zeroed memory. -/
theorem copyAt_zero (path : Bytes) (hpath : path.length ≤ 108) :
    copyAt (zeroed 108 []) 0 path = .ok (zeroed 108 path) := by
  have hfits : 0 + path.length ≤ 108 := by omega
  rw [copyAt, if_pos hfits]
  refine congrArg Except.ok (Vector.ext fun i hi => ?_)
  rw [getElem_zeroed path hi, Vector.getElem_ofFn, if_pos (Nat.zero_le i), Nat.sub_zero,
    get_zeroed, List.getD_nil]

/-- The terminator is there already. -/
theorem copyAt_terminator (hpath : path.length < 108) :
    copyAt (zeroed 108 path) path.length [0] = .ok (zeroed 108 path) := by
  have hfits : path.length + [(0 : UInt8)].length ≤ 108 := hpath
  rw [copyAt, if_pos hfits]
  refine congrArg Except.ok (Vector.ext fun i hi => ?_)
  rw [Vector.getElem_ofFn, get_zeroed, getElem_zeroed path hi]
  by_cases hbehind : path.length ≤ i
  · rw [if_pos hbehind, List.getD_eq_default path 0 hbehind]
    cases i - path.length <;> rfl
  · rw [if_neg hbehind]

/-! ### Stored paths -/

theorem isAbstract_iff : UnixAddress.isAbstract path = true ↔ path.head? = some 0 := by
  rw [UnixAddress.isAbstract, beq_iff_eq]

theorem length_le_stored (path : Bytes) : path.length ≤ (stored path).length := by
  rw [stored]
  split
  · exact Nat.le_refl _
  · rw [List.length_append]
    exact Nat.le_add_right _ _

/-- **A path** is stored with nothing but zeros behind it, or refused. -/
theorem ofPath_eq (path : Bytes) : UnixAddress.ofPath path =
    if (stored path).length ≤ 108 then
      .ok ⟨1, zeroed 108 path, 2 + (stored path).length, path⟩
    else .error .lengthError := by
  rw [UnixAddress.ofPath, stored]
  cases habstract : UnixAddress.isAbstract path with
  | true =>
    by_cases hfits : path.length ≤ 108
    · have hnot : ¬108 < path.length := by omega
      simp [hfits, hnot, copyAt_zero path hfits]
    · have hlong : 108 < path.length := by omega
      simp [hfits, hlong]
  | false =>
    -- here the terminator needs a byte of its own
    by_cases hfits : path.length + 1 ≤ 108
    · have hnot : ¬108 ≤ path.length := by omega
      have hcopy := copyAt_zero path (by omega)
      simp [hfits, hnot, hcopy, copyAt_terminator hfits, bind, Except.bind, pure, Except.pure,
        Nat.add_assoc]
    · have hlong : 108 ≤ path.length := by omega
      simp [hfits, hlong]

theorem familyBytes_unix : familyBytes 1 = [1, 0] := rfl

/-- The memory that `Create` copies is that of the address. -/
theorem member_stored (hpath : path.length ≤ n) :
    member (zeroed 110 ((familyBytes 1 ++ (zeroed 108 path).toList).take (2 + n))).toList 2 108 =
      zeroed 108 path := by
  refine Vector.ext fun i hi => ?_
  have hlt : 2 + i < 110 := by omega
  rw [member, Vector.getElem_ofFn, getD_zeroed _ hlt, getElem_zeroed path hi,
    List.getD_eq_getElem?_getD, List.getElem?_take]
  by_cases hused : i < n
  · have hin : 2 + i < 2 + n := by omega
    rw [if_pos hin, Nat.add_comm, familyBytes_unix, List.cons_append,
      List.getElem?_cons_succ, List.cons_append, List.getElem?_cons_succ, List.nil_append,
      ← List.getD_eq_getElem?_getD, getD_zeroed path hi]
  · have hout : ¬2 + i < 2 + n := by omega
    rw [if_neg hout, List.getD_eq_default path 0 (by omega), Option.getD_none]

theorem saFamily_unix (rest : Bytes) : saFamily (familyBytes 1 ++ rest) = 1 := by
  rw [saFamily, familyBytes_unix, List.cons_append, List.getD_cons_zero, List.getD_cons_succ,
    List.cons_append, List.getD_cons_zero]
  decide

theorem saFamily_zeroed (rest : Bytes) (n : ℕ) :
    saFamily (zeroed 110 ((familyBytes 1 ++ rest).take (2 + n))).toList = 1 := by
  have htake : (familyBytes 1 ++ rest).take ((familyBytes 1).length + n) =
      familyBytes 1 ++ rest.take n := List.take_length_add_append n
  have hlength : (familyBytes 1).length = 2 := rfl
  rw [hlength] at htake
  rw [saFamily, getD_zeroed _ (by decide), getD_zeroed _ (by decide), htake]
  exact saFamily_unix (rest.take n)

/-- The reader takes the path out of what is stored; the terminator alone is read as a name. -/
theorem ofSockaddr_stored (hfits : (stored path).length ≤ 108) :
    UnixAddress.ofSockaddr 1 (zeroed 108 path) (2 + (stored path).length) =
      ⟨1, zeroed 108 path, 2 + (stored path).length, if path = [] then [0] else path⟩ := by
  have hlength : min (2 + (stored path).length) 110 = 2 + (stored path).length := by omega
  have hpath := length_le_stored path
  have hfirst : (zeroed 108 path).toList.getD 0 0 = path.getD 0 0 := getD_zeroed path (by decide)
  rw [UnixAddress.ofSockaddr, hlength, UnixAddress.mk.injEq]
  refine ⟨rfl, rfl, rfl, ?_⟩
  cases path with
  | nil =>
    -- the only byte that is used is the terminator, which is taken for an abstract name
    have hone : zeroed 108 [] = zeroed 108 [0] := by
      refine Vector.ext fun i hi => ?_
      rw [getElem_zeroed [] hi, getElem_zeroed [0] hi]
      cases i <;> rfl
    have hused : min (2 + (stored []).length - 2) 108 = 1 := rfl
    have hpos : 2 < 2 + (stored []).length := by decide
    rw [if_pos hpos, hused, hfirst, if_neg (fun h => h.2.1 rfl), if_pos rfl, hone]
    exact take_zeroed [0] (by decide)
  | cons c path =>
    have hpos : 2 < 2 + (stored (c :: path)).length := by
      rw [List.length_cons] at hpath
      omega
    have hused : min (2 + (stored (c :: path)).length - 2) 108 = (stored (c :: path)).length := by
      omega
    rw [if_pos hpos, hused, hfirst, if_neg (List.cons_ne_nil c path), List.getD_cons_zero]
    by_cases hc : c = 0
    · -- an abstract name is all that is used
      have hstored : stored (c :: path) = c :: path := by
        rw [hc]
        rfl
      rw [if_neg (fun h => h.2.1 hc), hstored]
      rw [hstored] at hfits
      exact take_zeroed _ hfits
    · -- any other name is stored with its terminator, which the reader takes off
      have hstored : stored (c :: path) = c :: path ++ [0] := by
        rw [stored, if_neg]
        rw [isAbstract_iff, List.head?_cons, Option.some_inj]
        exact hc
      have hlen : (stored (c :: path)).length = (c :: path).length + 1 := by
        rw [hstored, List.length_append]
        rfl
      have hlast :
          (zeroed 108 (c :: path)).toList.getD ((stored (c :: path)).length - 1) 0 = 0 := by
        rw [hlen, Nat.add_sub_cancel, getD_zeroed _ (by omega)]
        exact List.getD_eq_default _ _ (Nat.le_refl _)
      rw [if_pos ⟨by omega, hc, hlast⟩, hlen, Nat.add_sub_cancel]
      exact take_zeroed _ (by omega)

theorem create_unix {memory : Bytes} (hn : 2 ≤ n) (hfamily : saFamily memory = 1) :
    Address.create (some memory) n = some (.unix (.ofSockaddr
      (saFamily (zeroed 110 (memory.take (min n 110))).toList)
      (member (zeroed 110 (memory.take (min n 110))).toList 2 108) n)) := by
  have hunix : ((saFamily memory).toNat : ℤ) = afUnix := by
    rw [hfamily]
    rfl
  have hinet : ¬afUnix = afInet := by decide
  have hinet6 : ¬afUnix = afInet6 := by decide
  rw [Address.create, if_neg (Nat.not_lt.mpr hn), hunix]
  simp only [hinet, hinet6, false_and, if_false, if_true]

theorem create_stored (hfits : (stored path).length ≤ 108) (decoded : Bytes) :
    Address.create (some (Address.unix ⟨1, zeroed 108 path, 2 + (stored path).length,
      decoded⟩).getAddr) (2 + (stored path).length) =
        some (.unix ⟨1, zeroed 108 path, 2 + (stored path).length,
          if path = [] then [0] else path⟩) := by
  have hlength : min (2 + (stored path).length) 110 = 2 + (stored path).length := by omega
  rw [Address.getAddr, UnixAddress.getAddr, create_unix (Nat.le_add_right _ _) (saFamily_unix _),
    hlength, saFamily_zeroed, member_stored (length_le_stored path),
    ofSockaddr_stored hfits]

/-! ### Every path -/

/-- The empty path is read back as the abstract name of one zero. -/
theorem not_survives_nil : ¬Survives [] := by
  have hfits : (stored []).length ≤ 108 := by decide
  rw [Survives, ofPath_eq, if_pos hfits]
  rintro ⟨a, ha, _, hpath⟩
  rw [Address.getAddrLen, create_stored hfits, Option.some_inj, Address.unix.injEq] at ha
  rw [← ha] at hpath
  cases hpath

/-- **Paths survive** the socket address exactly when they are not empty. -/
theorem survives_iff (path : Bytes) : Survives path ↔ path ≠ [] := by
  constructor
  · rintro h rfl
    exact not_survives_nil h
  · intro hne
    rw [Survives, ofPath_eq]
    by_cases hfits : (stored path).length ≤ 108
    · rw [if_pos hfits]
      refine ⟨_, create_stored hfits path, ?_, if_neg hne⟩
      rw [if_neg hne]
      exact Address.equals_self _
    · rw [if_neg hfits]
      exact Nat.not_le.mp hfits

/-- Not every path survives. -/
theorem not_all_survive : ¬∀ path, Survives path :=
  fun h => not_survives_nil (h [])

end Net
