/-
Transfers of a fixed size.

`Stream::readFixSize` and `writeFixSize` call `read` and `write` until all bytes have gone
through, and return their number as an `int`.  The system call behind `SocketStream` is a
parameter: for each call it says how many bytes go through.

* `fixSizeLoop`, `fixSizeLoop_rule`, `fixSizeLoop_all` — the loop, and how to reason about
  it;
* `readFixSize_spec`, `writeFixSize_spec` — what has gone through when it ends;
* `ReadsExactly`, `WritesExactly` — a positive result says that all bytes have;
* `fixSize_exact_iff` — for which lengths it does.
-/
import Droplet.Lib.Splice
import Mathlib.Algebra.Group.Nat.Defs

open Splice

namespace Stream

variable {σ ε α : Type}

/-- `static_cast<int>`. -/
def narrow (n : Int) : Int := (BitVec.ofInt 32 n).toInt

/-! ### The loop -/

/-- The loop of `readFixSize` and `writeFixSize` from an offset on; `transfer` is a call of
`read` or `write` at an offset, for so many bytes. -/
def fixSizeLoop (transfer : ℕ → ℕ → EStateM ε σ Int) (length offset : ℕ) : EStateM ε σ Int :=
  if offset < length then do
    let result ← transfer offset (length - offset)
    if result ≤ 0 then return result
    else fixSizeLoop transfer length (offset + result.toNat)
  else return narrow length
termination_by length - offset
decreasing_by omega

section rule

variable {transfer : ℕ → ℕ → EStateM ε σ Int} {length : ℕ} {s s' : σ} {r : Int}

theorem fixSizeLoop_done {offset : ℕ} (hle : length ≤ offset) :
    fixSizeLoop transfer length offset s = .ok (narrow length) s := by
  rw [fixSizeLoop, if_neg (Nat.not_lt.mpr hle)]
  rfl

/-- A call that returns. -/
theorem fixSizeLoop_step {offset : ℕ} (hlt : offset < length)
    (hcall : transfer offset (length - offset) s = .ok r s') :
    fixSizeLoop transfer length offset s =
      if r ≤ 0 then .ok r s' else fixSizeLoop transfer length (offset + r.toNat) s' := by
  rw [fixSizeLoop, if_pos hlt]
  show EStateM.bind _ _ s = _
  rw [EStateM.bind, hcall]
  show (if r ≤ 0 then pure r else fixSizeLoop transfer length (offset + r.toNat) : EStateM ε σ Int) s' = _
  by_cases hstop : r ≤ 0
  · rw [if_pos hstop, if_pos hstop]
    rfl
  · rw [if_neg hstop, if_neg hstop]

/-- A call that throws. -/
theorem fixSizeLoop_error {offset : ℕ} {e : ε} (hlt : offset < length)
    (hcall : transfer offset (length - offset) s = .error e s') :
    fixSizeLoop transfer length offset s = .error e s' := by
  rw [fixSizeLoop, if_pos hlt]
  show EStateM.bind _ _ s = _
  rw [EStateM.bind, hcall]

/-- **The rule of the loop**: a call either stops it, or goes on from a later offset. -/
theorem fixSizeLoop_rule (Inv : ℕ → σ → Prop) (Stop : ℕ → Int → σ → Prop)
    (hstep : ∀ offset < length, ∀ s, Inv offset s →
      ∃ r s', transfer offset (length - offset) s = .ok r s' ∧
        (r ≤ 0 ∧ Stop offset r s' ∨
          0 < r ∧ offset + r.toNat ≤ length ∧ Inv (offset + r.toNat) s'))
    {offset : ℕ} (hle : offset ≤ length) (h : Inv offset s) :
    ∃ r s', fixSizeLoop transfer length offset s = .ok r s' ∧
      (Inv length s' ∧ r = narrow length ∨ ∃ offset < length, r ≤ 0 ∧ Stop offset r s') := by
  -- on the bytes that are left
  induction hleft : length - offset using Nat.strongRecOn generalizing offset s with
  | ind left ih =>
    obtain hdone | hlt := Nat.eq_or_lt_of_le hle
    · subst hdone
      exact ⟨_, s, fixSizeLoop_done (Nat.le_refl _), .inl ⟨h, rfl⟩⟩
    · obtain ⟨r, s', hcall, hstop | hmore⟩ := hstep offset hlt s h
      · rw [fixSizeLoop_step hlt hcall, if_pos hstop.1]
        exact ⟨r, s', rfl, .inr ⟨offset, hlt, hstop⟩⟩
      · obtain ⟨hpos, hwithin, hinv⟩ := hmore
        rw [fixSizeLoop_step hlt hcall, if_neg (Int.not_le.mpr hpos)]
        exact ih (length - (offset + r.toNat)) (by omega) hwithin hinv rfl

/-- Every call moves some bytes: all of them are. -/
theorem fixSizeLoop_all (Inv : ℕ → σ → Prop)
    (hstep : ∀ offset < length, ∀ s, Inv offset s →
      ∃ r s', transfer offset (length - offset) s = .ok r s' ∧ 0 < r ∧
        offset + r.toNat ≤ length ∧ Inv (offset + r.toNat) s') (h : Inv 0 s) :
    ∃ s', fixSizeLoop transfer length 0 s = .ok (narrow length) s' ∧ Inv length s' := by
  obtain ⟨r, s', hrun, ⟨hinv, rfl⟩ | ⟨_, -, -, hfalse⟩⟩ :=
    fixSizeLoop_rule Inv (fun _ _ _ => False) (fun offset hlt s hs => by
      obtain ⟨r, s', hcall, hmore⟩ := hstep offset hlt s hs
      exact ⟨r, s', hcall, .inr hmore⟩) (Nat.zero_le length) h
  · exact ⟨s', hrun, hinv⟩
  · exact hfalse.elim

end rule

/-! ### The stream of a socket -/

/-- What the system call answers: by the number of the call and the bytes that it is
asked for. -/
abbrev Kernel := ℕ → ℕ → Int

/-- The most that a call of `recv` or `send` transfers. -/
def transferMax : ℕ := 0x7ffff000

/-- An error, or a number of bytes. -/
def Kernel.Valid (kernel : Kernel) : Prop :=
  ∀ call requested, kernel call requested = -1 ∨
    0 ≤ kernel call requested ∧ kernel call requested ≤ min requested transferMax

/-- A socket; the peer sends `incoming`, of which `received` have been taken, and gets
`sent`.  `results` records what `read` and `write` have returned. -/
structure SocketStream (α : Type) where
  connected : Bool
  incoming : ℕ → α
  received : ℕ
  sent : List α
  results : List Int

namespace SocketStream

variable {kernel : Kernel} {stream stream' : SocketStream α} {length offset : ℕ} {memory data : List α}

/-- The next bytes that the peer sends. -/
def upcoming (stream : SocketStream α) (n : ℕ) : List α :=
  (List.range n).map fun i => stream.incoming (stream.received + i)

/-- What `read` and `write` return for so many bytes; `kernel` is the system call. -/
def answer (stream : SocketStream α) (kernel : Kernel) (length : ℕ) : Int :=
  if stream.connected = false then -1
  else if length > 2 ^ 63 - 1 then -1
  else narrow (kernel stream.results.length length)

/-- The call has returned. -/
def record (stream : SocketStream α) (result : Int) : SocketStream α :=
  { stream with results := stream.results ++ [result] }

/-- `read` into memory: the result, the bytes, and the stream after it. -/
def read (stream : SocketStream α) (kernel : Kernel) (length : ℕ) : Int × List α × SocketStream α :=
  let result := stream.answer kernel length
  (result, stream.upcoming result.toNat,
    { stream.record result with received := stream.received + result.toNat })

/-- `write` from memory. -/
def write (stream : SocketStream α) (kernel : Kernel) (data : List α) : Int × SocketStream α :=
  let result := stream.answer kernel data.length
  (result, { stream.record result with sent := stream.sent ++ data.take result.toNat })

/-- `read` into the memory behind a pointer, at an offset. -/
def readInto (kernel : Kernel) (offset length : ℕ) : EStateM Empty (List α × SocketStream α) Int :=
  fun s =>
    let r := s.2.read kernel length
    .ok r.1 (splice s.1 offset r.2.1, r.2.2)

/-- `write` from the memory behind a pointer, at an offset. -/
def writeFrom (kernel : Kernel) (data : List α) (offset length : ℕ) :
    EStateM Empty (SocketStream α) Int := fun stream =>
  let r := stream.write kernel ((data.drop offset).take length)
  .ok r.1 r.2

def readFixSize (kernel : Kernel) (length : ℕ) : EStateM Empty (List α × SocketStream α) Int :=
  fixSizeLoop (readInto kernel) length 0

def writeFixSize (kernel : Kernel) (data : List α) : EStateM Empty (SocketStream α) Int :=
  fixSizeLoop (writeFrom kernel data) data.length 0

/-! ### What has gone through -/

/-- A number of bytes that a call may transfer is an `int`. -/
theorem narrow_of_valid (hkernel : kernel.Valid) (call requested : ℕ) :
    narrow (kernel call requested) = kernel call requested := by
  have hbound := hkernel call requested
  rw [narrow, BitVec.toInt_ofInt]
  refine Int.bmod_eq_of_le ?_ ?_
  · omega
  · have hmax : transferMax = 0x7ffff000 := rfl
    omega

theorem answer_le (hkernel : kernel.Valid) (stream : SocketStream α) (length : ℕ) :
    (stream.answer kernel length).toNat ≤ length := by
  rw [answer]
  split_ifs with hclosed hlong
  · exact Nat.zero_le _
  · exact Nat.zero_le _
  · rw [narrow_of_valid hkernel]
    have hbound := hkernel stream.results.length length
    omega

theorem upcoming_add (stream : SocketStream α) (n m : ℕ) :
    stream.upcoming (n + m) =
      stream.upcoming n ++ { stream with received := stream.received + n }.upcoming m := by
  rw [upcoming, upcoming, upcoming, List.range_add, List.map_append, List.map_map]
  refine congrArg (_ ++ ·) (List.map_congr_left fun i _ => ?_)
  show stream.incoming (stream.received + (n + i)) = stream.incoming (stream.received + n + i)
  rw [Nat.add_assoc]

theorem length_upcoming (stream : SocketStream α) (n : ℕ) : (stream.upcoming n).length = n := by
  rw [upcoming, List.length_map, List.length_range]

/-- The calls so far have all returned a positive number. -/
def Going (stream stream' : SocketStream α) : Prop :=
  ∃ before, stream'.results = stream.results ++ before ∧ ∀ x ∈ before, 0 < x

/-- The last call has stopped the loop. -/
def Stopped (stream stream' : SocketStream α) (r : Int) : Prop :=
  ∃ before, stream'.results = stream.results ++ before ++ [r] ∧ ∀ x ∈ before, 0 < x

theorem Going.refl (stream : SocketStream α) : Going stream stream :=
  ⟨[], (List.append_nil _).symm, fun _ hx => absurd hx List.not_mem_nil⟩

theorem Going.more {stream'' : SocketStream α} {r : Int} (h : Going stream stream')
    (hresults : stream''.results = stream'.results ++ [r]) (hpos : 0 < r) : Going stream stream'' := by
  obtain ⟨before, hbefore, hall⟩ := h
  refine ⟨before ++ [r], by rw [hresults, hbefore, List.append_assoc], ?_⟩
  intro x hx
  obtain hold | hlast := List.mem_append.mp hx
  · exact hall x hold
  · rw [List.mem_singleton.mp hlast]
    exact hpos

theorem Going.stopped {stream'' : SocketStream α} {r : Int} (h : Going stream stream')
    (hresults : stream''.results = stream'.results ++ [r]) : Stopped stream stream'' r := by
  obtain ⟨before, hbefore, hall⟩ := h
  exact ⟨before, by rw [hresults, hbefore], hall⟩

/-- So many bytes have come in, in order, and are in the memory. -/
structure Received (stream : SocketStream α) (memory : List α) (n : ℕ)
    (s : List α × SocketStream α) : Prop where
  memory : s.1 = splice memory 0 (stream.upcoming n)
  incoming : s.2.incoming = stream.incoming
  received : s.2.received = stream.received + n
  connected : s.2.connected = stream.connected

/-- So many bytes have gone out, in order. -/
structure Sent (stream : SocketStream α) (data : List α) (n : ℕ) (stream' : SocketStream α) :
    Prop where
  sent : stream'.sent = stream.sent ++ data.take n
  connected : stream'.connected = stream.connected

theorem received_zero (stream : SocketStream α) (memory : List α) :
    Received stream memory 0 (memory, stream) := by
  refine ⟨?_, rfl, rfl, rfl⟩
  rw [upcoming, List.range_zero, List.map_nil, splice_nil]

theorem sent_zero (stream : SocketStream α) (data : List α) : Sent stream data 0 stream :=
  ⟨(List.append_nil _).symm, rfl⟩

theorem Sent.unique {n m : ℕ} (h : Sent stream data n stream') (hother : Sent stream data m stream')
    (hn : n ≤ data.length) (hm : m ≤ data.length) : n = m := by
  have hsame := congrArg List.length (h.sent.symm.trans hother.sent)
  rw [List.length_append, List.length_append, List.length_take, List.length_take] at hsame
  omega

theorem Received.more {n m : ℕ} {s : List α × SocketStream α} {stream' : SocketStream α}
    (h : Received stream memory n s) (hincoming : stream'.incoming = s.2.incoming)
    (hreceived : stream'.received = s.2.received + m) (hconnected : stream'.connected = s.2.connected) :
    Received stream memory (n + m) (splice s.1 n (s.2.upcoming m), stream') := by
  have hnext : s.2.upcoming m = { stream with received := stream.received + n }.upcoming m := by
    rw [upcoming, upcoming, h.incoming, h.received]
  refine ⟨?_, hincoming.trans h.incoming, ?_, hconnected.trans h.connected⟩
  · show splice s.1 n (s.2.upcoming m) = splice memory 0 (stream.upcoming (n + m))
    rw [upcoming_add, splice_append (Nat.zero_le _), length_upcoming, Nat.zero_add, hnext, h.memory]
  · rw [hreceived, h.received, Nat.add_assoc]

theorem Sent.more {n m : ℕ} {stream'' : SocketStream α} (h : Sent stream data n stream')
    (hle : n + m ≤ data.length)
    (hsent : stream''.sent = stream'.sent ++ ((data.drop n).take (data.length - n)).take m)
    (hconnected : stream''.connected = stream'.connected) : Sent stream data (n + m) stream'' := by
  refine ⟨?_, hconnected.trans h.connected⟩
  rw [hsent, h.sent, List.take_take, Nat.min_eq_left (by omega), List.append_assoc, List.take_add]

/-- One call of `read`. -/
theorem readInto_step (hkernel : kernel.Valid) {n : ℕ} (hlt : n < length)
    {s : List α × SocketStream α} (h : Received stream memory n s) (hgoing : Going stream s.2) :
    ∃ r s', readInto kernel n (length - n) s = .ok r s' ∧ r = s.2.answer kernel (length - n) ∧
      (r ≤ 0 ∧ Received stream memory n s' ∧ Stopped stream s'.2 r ∨
        0 < r ∧ n + r.toNat ≤ length ∧ Received stream memory (n + r.toNat) s' ∧
          Going stream s'.2) := by
  obtain ⟨r, hr⟩ : ∃ r, s.2.answer kernel (length - n) = r := ⟨_, rfl⟩
  obtain ⟨s', hs'⟩ : ∃ s', (splice s.1 n (s.2.upcoming r.toNat),
    { s.2.record r with received := s.2.received + r.toNat }) = s' := ⟨_, rfl⟩
  have hreceived : Received stream memory (n + r.toNat) s' := by
    rw [← hs']
    exact h.more rfl rfl rfl
  have hresults : s'.2.results = s.2.results ++ [r] := by
    rw [← hs']
    rfl
  have hle := answer_le hkernel s.2 (length - n)
  have hrun : readInto kernel n (length - n) s = .ok r s' := by
    rw [← hs', ← hr]
    rfl
  refine ⟨r, s', hrun, hr.symm, ?_⟩
  rw [hr] at hle
  by_cases hpos : 0 < r
  · exact .inr ⟨hpos, by omega, hreceived, hgoing.more hresults hpos⟩
  · have hstop : r ≤ 0 := Int.not_lt.mp hpos
    rw [Int.toNat_of_nonpos hstop] at hreceived
    exact .inl ⟨hstop, hreceived, hgoing.stopped hresults⟩

/-- One call of `write`. -/
theorem writeFrom_step (hkernel : kernel.Valid) {n : ℕ} (hlt : n < data.length)
    (h : Sent stream data n stream') (hgoing : Going stream stream') :
    ∃ r s', writeFrom kernel data n (data.length - n) stream' = .ok r s' ∧
      r = stream'.answer kernel (data.length - n) ∧
      (r ≤ 0 ∧ Sent stream data n s' ∧ Stopped stream s' r ∨
        0 < r ∧ n + r.toNat ≤ data.length ∧ Sent stream data (n + r.toNat) s' ∧
          Going stream s') := by
  have hleft : ((data.drop n).take (data.length - n)).length = data.length - n := by
    rw [List.length_take, List.length_drop, Nat.min_self]
  obtain ⟨r, hr⟩ : ∃ r, stream'.answer kernel (data.length - n) = r := ⟨_, rfl⟩
  obtain ⟨s', hs'⟩ : ∃ s', { stream'.record r with
    sent := stream'.sent ++ ((data.drop n).take (data.length - n)).take r.toNat } = s' := ⟨_, rfl⟩
  have hle := answer_le hkernel stream' (data.length - n)
  rw [hr] at hle
  have hsent : Sent stream data (n + r.toNat) s' := by
    rw [← hs']
    exact h.more (by omega) rfl rfl
  have hresults : s'.results = stream'.results ++ [r] := by
    rw [← hs']
    rfl
  have hrun : writeFrom kernel data n (data.length - n) stream' = .ok r s' := by
    rw [writeFrom, write, hleft, hr, ← hs']
  refine ⟨r, s', hrun, hr.symm, ?_⟩
  by_cases hpos : 0 < r
  · exact .inr ⟨hpos, by omega, hsent, hgoing.more hresults hpos⟩
  · have hstop : r ≤ 0 := Int.not_lt.mp hpos
    rw [Int.toNat_of_nonpos hstop] at hsent
    exact .inl ⟨hstop, hsent, hgoing.stopped hresults⟩

/-- **`readFixSize`** ends with so many bytes in the memory: all of them, or those before
the call that stopped it. -/
theorem readFixSize_spec (hkernel : kernel.Valid) (stream : SocketStream α) (memory : List α)
    (length : ℕ) : ∃ r s, readFixSize kernel length (memory, stream) = .ok r s ∧
      ((Received stream memory length s ∧ Going stream s.2) ∧ r = narrow length ∨
        ∃ n < length, r ≤ 0 ∧ Received stream memory n s ∧ Stopped stream s.2 r) := by
  refine fixSizeLoop_rule (fun n s => Received stream memory n s ∧ Going stream s.2)
    (fun n r s => Received stream memory n s ∧ Stopped stream s.2 r) ?_ (Nat.zero_le _)
    ⟨received_zero stream memory, Going.refl stream⟩
  intro n hlt s ⟨hreceived, hgoing⟩
  obtain ⟨r, s', hrun, -, hend⟩ := readInto_step hkernel hlt hreceived hgoing
  exact ⟨r, s', hrun, hend⟩

/-- **`writeFixSize`** ends with so many bytes sent. -/
theorem writeFixSize_spec (hkernel : kernel.Valid) (stream : SocketStream α) (data : List α) :
    ∃ r stream', writeFixSize kernel data stream = .ok r stream' ∧
      ((Sent stream data data.length stream' ∧ Going stream stream') ∧ r = narrow data.length ∨
        ∃ n < data.length, r ≤ 0 ∧ Sent stream data n stream' ∧ Stopped stream stream' r) := by
  refine fixSizeLoop_rule (fun n s => Sent stream data n s ∧ Going stream s)
    (fun n r s => Sent stream data n s ∧ Stopped stream s r) ?_ (Nat.zero_le _)
    ⟨sent_zero stream data, Going.refl stream⟩
  intro n hlt s ⟨hsent, hgoing⟩
  obtain ⟨r, s', hrun, -, hend⟩ := writeFrom_step hkernel hlt hsent hgoing
  exact ⟨r, s', hrun, hend⟩

/-! ### Complete transfers -/

/-- `readFixSize` returns a positive value exactly when all bytes are in the memory, in
order, and else the first value that is not positive. -/
def ReadsExactly (kernel : Kernel) (stream : SocketStream α) (memory : List α) (length : ℕ) : Prop :=
  ∃ r s n, readFixSize kernel length (memory, stream) = .ok r s ∧ n ≤ length ∧
    Received stream memory n s ∧ (0 < r ↔ 0 < length ∧ n = length) ∧
    (n ≠ length → r ≤ 0 ∧ Stopped stream s.2 r)

/-- `writeFixSize` does so for the bytes that are sent. -/
def WritesExactly (kernel : Kernel) (stream : SocketStream α) (data : List α) : Prop :=
  ∃ r stream' n, writeFixSize kernel data stream = .ok r stream' ∧ n ≤ data.length ∧
    Sent stream data n stream' ∧ (0 < r ↔ 0 < data.length ∧ n = data.length) ∧
    (n ≠ data.length → r ≤ 0 ∧ Stopped stream stream' r)

/-- The low 32 bits of the length are a positive `int`, or the length is zero. -/
def IntLength (length : ℕ) : Prop :=
  length = 0 ∨ 0 < length % 2 ^ 32 ∧ length % 2 ^ 32 < 2 ^ 31

/-- All that may be transferred is. -/
def fullKernel : Kernel := fun _ requested => ((min requested transferMax : ℕ) : Int)

theorem fullKernel_valid : fullKernel.Valid := by
  intro call requested
  exact .inr ⟨Int.natCast_nonneg _, Int.le_refl _⟩

theorem answer_fullKernel (hconnected : stream.connected = true) (hpos : 0 < length)
    (hlength : length < 2 ^ 63) : 0 < stream.answer fullKernel length := by
  have hmax : transferMax = 0x7ffff000 := rfl
  rw [answer, if_neg (by rw [hconnected]; decide), if_neg (by omega),
    narrow_of_valid fullKernel_valid, fullKernel]
  omega

/-- With `fullKernel` everything goes through, and the length comes back as an `int`. -/
theorem readFixSize_full (hconnected : stream.connected = true) (hlength : length < 2 ^ 63)
    (memory : List α) :
    ∃ s, readFixSize fullKernel length (memory, stream) = .ok (narrow length) s ∧
      Received stream memory length s := by
  have hstep : ∀ n < length, ∀ s, Received stream memory n s ∧ Going stream s.2 →
      ∃ r s', readInto fullKernel n (length - n) s = .ok r s' ∧ 0 < r ∧ n + r.toNat ≤ length ∧
        Received stream memory (n + r.toNat) s' ∧ Going stream s'.2 := by
    intro n hlt s ⟨hreceived, hgoing⟩
    obtain ⟨r, s', hrun, hr, hend⟩ := readInto_step fullKernel_valid hlt hreceived hgoing
    have hpos := answer_fullKernel (hreceived.connected.trans hconnected) (Nat.sub_pos_of_lt hlt)
      (by omega)
    rw [← hr] at hpos
    exact ⟨r, s', hrun, hend.resolve_left fun hstop => by omega⟩
  obtain ⟨s, hrun, hreceived, -⟩ :=
    fixSizeLoop_all _ hstep ⟨received_zero stream memory, Going.refl stream⟩
  exact ⟨s, hrun, hreceived⟩

theorem writeFixSize_full (hconnected : stream.connected = true) (hlength : data.length < 2 ^ 63) :
    ∃ stream', writeFixSize fullKernel data stream = .ok (narrow data.length) stream' ∧
      Sent stream data data.length stream' := by
  have hstep : ∀ n < data.length, ∀ s, Sent stream data n s ∧ Going stream s →
      ∃ r s', writeFrom fullKernel data n (data.length - n) s = .ok r s' ∧ 0 < r ∧
        n + r.toNat ≤ data.length ∧ Sent stream data (n + r.toNat) s' ∧ Going stream s' := by
    intro n hlt s ⟨hsent, hgoing⟩
    obtain ⟨r, s', hrun, hr, hend⟩ := writeFrom_step fullKernel_valid hlt hsent hgoing
    have hpos := answer_fullKernel (hsent.connected.trans hconnected) (Nat.sub_pos_of_lt hlt)
      (by omega)
    rw [← hr] at hpos
    exact ⟨r, s', hrun, hend.resolve_left fun hstop => by omega⟩
  obtain ⟨stream', hrun, hsent, -⟩ :=
    fixSizeLoop_all _ hstep ⟨sent_zero stream data, Going.refl stream⟩
  exact ⟨stream', hrun, hsent⟩

theorem narrow_pos_iff (length : ℕ) :
    0 < narrow length ↔ 0 < length % 2 ^ 32 ∧ length % 2 ^ 32 < 2 ^ 31 := by
  have hhalf : (((2 ^ 32 : ℕ) : Int) + 1) / 2 = 2 ^ 31 := by decide
  rw [narrow, BitVec.toInt_ofInt, Int.bmod_def, hhalf]
  split_ifs <;> omega

theorem IntLength.narrow_pos_iff (h : IntLength length) :
    0 < narrow length ↔ 0 < length ∧ length = length := by
  rw [SocketStream.narrow_pos_iff]
  obtain rfl | hpos := h
  · omega
  · have hne : length ≠ 0 := by
      rintro rfl
      omega
    exact iff_of_true hpos ⟨Nat.pos_of_ne_zero hne, rfl⟩

/-- A length that is positive as an `int` is returned as such. -/
theorem readsExactly_of_intLength (hkernel : kernel.Valid) (stream : SocketStream α)
    (memory : List α) (hlength : IntLength length) : ReadsExactly kernel stream memory length := by
  obtain ⟨r, s, hrun, ⟨⟨hreceived, -⟩, rfl⟩ | ⟨n, hlt, hstop, hreceived, hstopped⟩⟩ :=
    readFixSize_spec hkernel stream memory length
  · exact ⟨_, s, length, hrun, Nat.le_refl _, hreceived, hlength.narrow_pos_iff,
      fun hne => absurd rfl hne⟩
  · refine ⟨r, s, n, hrun, Nat.le_of_lt hlt, hreceived, ?_, fun _ => ⟨hstop, hstopped⟩⟩
    exact iff_of_false (Int.not_lt.mpr hstop) fun h => Nat.ne_of_lt hlt h.2

theorem writesExactly_of_intLength (hkernel : kernel.Valid) (stream : SocketStream α)
    (hlength : IntLength data.length) : WritesExactly kernel stream data := by
  obtain ⟨r, s, hrun, ⟨⟨hsent, -⟩, rfl⟩ | ⟨n, hlt, hstop, hsent, hstopped⟩⟩ :=
    writeFixSize_spec hkernel stream data
  · exact ⟨_, s, data.length, hrun, Nat.le_refl _, hsent, hlength.narrow_pos_iff,
      fun hne => absurd rfl hne⟩
  · refine ⟨r, s, n, hrun, Nat.le_of_lt hlt, hsent, ?_, fun _ => ⟨hstop, hstopped⟩⟩
    exact iff_of_false (Int.not_lt.mpr hstop) fun h => Nat.ne_of_lt hlt h.2

/-- Another length is not: everything goes through, and the result is not positive. -/
theorem not_readsExactly (hconnected : stream.connected = true) (memory : List α)
    (hlength : length < 2 ^ 63) (hint : ¬ IntLength length) :
    ¬ ReadsExactly fullKernel stream memory length := by
  rintro ⟨r, s, n, hrun, hle, hreceived, hpositive, -⟩
  obtain ⟨s', hfull, hall⟩ := readFixSize_full hconnected hlength memory
  rw [hfull] at hrun
  cases hrun
  have hn : n = length := by
    have hsame := hreceived.received.symm.trans hall.received
    omega
  have hpos : 0 < length := Nat.pos_of_ne_zero fun hzero => hint (.inl hzero)
  exact hint (.inr ((narrow_pos_iff _).mp (hpositive.mpr ⟨hpos, hn⟩)))

theorem not_writesExactly (hconnected : stream.connected = true) (hlength : data.length < 2 ^ 63)
    (hint : ¬ IntLength data.length) : ¬ WritesExactly fullKernel stream data := by
  rintro ⟨r, stream', n, hrun, hle, hsent, hpositive, -⟩
  obtain ⟨stream'', hfull, hall⟩ := writeFixSize_full hconnected hlength
  rw [hfull] at hrun
  cases hrun
  have hn : n = data.length := hsent.unique hall hle (Nat.le_refl _)
  have hpos : 0 < data.length := Nat.pos_of_ne_zero fun hzero => hint (.inl hzero)
  exact hint (.inr ((narrow_pos_iff _).mp (hpositive.mpr ⟨hpos, hn⟩)))

end SocketStream

end Stream
