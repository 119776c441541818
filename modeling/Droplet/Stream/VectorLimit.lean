/-
Transfers between a socket and a `ByteArray`.

`SocketStream` passes the buffers of a `ByteArray` to `recvmsg` and `sendmsg`, one entry for
each block that the bytes touch, and the kernel refuses more than `vectorMax` of them.
`readFixSize` and `writeFixSize` ask for all that is left each time, so that it is the
first call that decides.

* `length_buffersLoop_le` — the entries for a number of bytes;
* `readBuffer`, `writeBuffer` — the calls of `SocketStream`, with the entries that they
  pass;
* `readBuffer_step`, `writeBuffer_step` — one round of the loops;
* `vector_limit_iff` — when the limit is kept, and when all bytes go through.
-/
import Droplet.Stream.Clear
import Droplet.Stream.FixSize
import Droplet.Stream.ScatterGather
import Droplet.Stream.Varint

open Splice Transition Transition.System

namespace Stream

variable {s : ByteArray} {length n limit b : ℕ}

/-! ### Entries -/

/-- The buffers for some bytes are as many as the blocks that they touch. -/
theorem length_buffersLoop_le {nodes : List (List Byte)} {offset : ℕ} (k remaining : ℕ)
    (hnodes : ∀ node ∈ nodes, node.length = b) (hoffset : offset < b) (hpos : 0 < remaining)
    (hroom : offset + remaining ≤ nodes.flatten.length) (limit : ℕ) :
    (buffersLoop nodes k offset remaining).1.length ≤ limit ↔ offset + remaining ≤ limit * b := by
  induction nodes generalizing k offset remaining limit with
  | nil =>
    rw [List.flatten_nil, List.length_nil] at hroom
    omega
  | cons node rest ih =>
    have hnode : node.length = b := hnodes node List.mem_cons_self
    have hrest : ∀ node ∈ rest, node.length = b := fun node hmem =>
      hnodes node (List.mem_cons_of_mem _ hmem)
    rw [List.flatten_cons, List.length_append] at hroom
    rw [buffersLoop, if_neg (by omega)]
    show (buffersLoop rest (k + 1) 0 (remaining - min remaining (node.length - offset))).1.length + 1 ≤
      limit ↔ _
    by_cases hfirst : offset + remaining ≤ b
    · -- all of it is in the first block
      have hnone : remaining - min remaining (node.length - offset) = 0 := by omega
      have hempty : (buffersLoop rest (k + 1) 0 0).1 = [] := by
        cases rest with
        | nil => rfl
        | cons node rest => rw [buffersLoop, if_pos rfl]
      rw [hnone, hempty, List.length_nil]
      constructor
      · intro hle
        exact Nat.le_trans hfirst (Nat.le_mul_of_pos_left b hle)
      · intro hle
        refine Nat.pos_of_ne_zero ?_
        rintro rfl
        omega
    · have hoffset : 0 < b := Nat.lt_of_le_of_lt (Nat.zero_le _) hoffset
      have hloop : ∀ limit, (buffersLoop rest (k + 1) 0
            (remaining - min remaining (node.length - offset))).1.length ≤ limit ↔
          0 + (remaining - min remaining (node.length - offset)) ≤ limit * b :=
        ih _ _ hrest hoffset (by omega) (by omega)
      cases limit with
      | zero => omega
      | succ limit =>
        rw [Nat.succ_le_succ_iff, hloop limit, Nat.succ_mul]
        omega

namespace ByteArray

/-- The block of a position, and the offset in it. -/
theorem nodeAt_eq {nodes : List (List Byte)} (hnodes : ∀ node ∈ nodes, node.length = b) (hb : 0 < b)
    {position : ℕ} (hlt : position < nodes.flatten.length) :
    nodeAt nodes position = (position / b, position % b) := by
  induction nodes generalizing position with
  | nil => exact absurd hlt (Nat.not_lt_zero position)
  | cons node rest ih =>
    have hnode : node.length = b := hnodes node List.mem_cons_self
    rw [List.flatten_cons, List.length_append] at hlt
    rw [nodeAt, hnode]
    by_cases hge : position ≥ b
    · have hrest : nodeAt rest (position - b) = ((position - b) / b, (position - b) % b) :=
        ih (fun node hmem => hnodes node (List.mem_cons_of_mem _ hmem)) (by omega)
      rw [if_pos hge, hrest, Nat.div_eq_sub_div hb hge, Nat.mod_eq_sub_mod hge]
    · have hlt : position < b := Nat.not_le.mp hge
      rw [if_neg hge, Nat.div_eq_of_lt hlt, Nat.mod_eq_of_lt hlt]

/-- The entries for the bytes from a position on. -/
theorem length_buffersAt_le (h : s.WellFormed) {position : ℕ} (hpos : 0 < n)
    (hroom : position + n ≤ s.capacity) (limit : ℕ) :
    (s.buffersAt n position).2.length ≤ limit ↔ position % s.baseSize + n ≤ limit * s.baseSize := by
  have hlt : position < s.nodes.flatten.length := by
    rw [h.length_flatten]
    omega
  have hplace := nodeAt_eq h.nodes h.base hlt
  have hbehind := room_nodeAt h hroom
  rw [hplace] at hbehind
  rw [buffersAt, hplace]
  exact length_buffersLoop_le _ n (fun node hmem => h.nodes node (List.mem_of_mem_drop hmem))
    (Nat.mod_lt _ h.base) hpos hbehind limit

end ByteArray

/-! ### The calls -/

/-- The most entries that `recvmsg` and `sendmsg` take. -/
def vectorMax : ℕ := 1024

/-- A state of a `ByteArray` and of a socket. -/
abbrev Transfer := ByteArray × SocketStream Byte

namespace SocketStream

variable {kernel : Kernel} {stream stream' : SocketStream Byte}

/-- What `recvmsg` and `sendmsg` answer for so many entries with so many bytes. -/
def vectorAnswer (stream : SocketStream Byte) (kernel : Kernel) (entries total : ℕ) : Int :=
  if entries > vectorMax then -1 else kernel stream.results.length total

/-- At least one byte goes through, if any is asked for, and not more than that. -/
def Generous (kernel : Kernel) : Prop :=
  ∀ call requested, 0 < requested →
    1 ≤ kernel call requested ∧ kernel call requested ≤ min requested transferMax

/-- The cursor is moved behind what has gone through. -/
def finish (result : Int) (buffer : ByteArray) (stream : SocketStream Byte) :
    EStateM.Result Error Transfer Int :=
  if result > 0 then
    match buffer.setPosition (buffer.position + result.toNat) with
    | .ok buffer => .ok (narrow result) (buffer, stream)
    | .error e => .error e (buffer, stream)
  else .ok (narrow result) (buffer, stream)

/-- `SocketStream::read` into a `ByteArray`; `fresh` holds what new blocks contain. -/
def readBuffer (kernel : Kernel) (fresh : Fresh) (length : ℕ) : EStateM Error Transfer Int :=
  fun (buffer, stream) =>
    if stream.connected = false then .ok (-1) (buffer, stream)
    else if length = 0 then .ok 0 (buffer, stream)
    else
      match buffer.getWriteBuffers (fresh stream.results.length) length with
      | .error e => .error e (buffer, stream)
      | .ok ((available, buffers), buffer) =>
        if available = 0 ∨ buffers = [] then .ok 0 (buffer, stream)
        else
          let result := stream.vectorAnswer kernel buffers.length available
          finish result (buffer.fill buffers (stream.upcoming result.toNat))
            { stream.record result with received := stream.received + result.toNat }

/-- `SocketStream::write` from a `ByteArray`. -/
def writeBuffer (kernel : Kernel) (length : ℕ) : EStateM Error Transfer Int :=
  fun (buffer, stream) =>
    if stream.connected = false then .ok (-1) (buffer, stream)
    else if length = 0 then .ok 0 (buffer, stream)
    else
      let r := buffer.getReadBuffers length
      if r.1 = 0 ∨ r.2 = [] then .ok 0 (buffer, stream)
      else
        let result := stream.vectorAnswer kernel r.2.length r.1
        finish result buffer { stream.record result with
          sent := stream.sent ++ (r.2.flatMap buffer.contents).take result.toNat }

/-- `readFixSize` into a `ByteArray`. -/
def readFixSizeBuffer (kernel : Kernel) (fresh : Fresh) (length : ℕ) :
    EStateM Error Transfer Int := fixSizeLoop (fun _ => readBuffer kernel fresh) length 0

/-- `writeFixSize` from a `ByteArray`. -/
def writeFixSizeBuffer (kernel : Kernel) (length : ℕ) : EStateM Error Transfer Int :=
  fixSizeLoop (fun _ => writeBuffer kernel) length 0

/-! ### One call -/

theorem narrow_generous (hkernel : Generous kernel) {call requested : ℕ} (hpos : 0 < requested) :
    narrow (kernel call requested) = kernel call requested := by
  have hbound := hkernel call requested hpos
  have hmax : transferMax = 0x7ffff000 := rfl
  rw [narrow, BitVec.toInt_ofInt]
  exact Int.bmod_eq_of_le (by omega) (by omega)

/-- So many bytes have come in behind the cursor, in order. -/
structure Filled (s : ByteArray) (stream : SocketStream Byte) (n : ℕ) (t : Transfer) : Prop where
  wellFormed : t.1.WellFormed
  baseSize : t.1.baseSize = s.baseSize
  position : t.1.position = s.position + n
  bytes : t.1.bytes = splice s.bytes s.position (stream.upcoming n)
  incoming : t.2.incoming = stream.incoming
  received : t.2.received = stream.received + n
  connected : t.2.connected = stream.connected

/-- So many bytes from the cursor on have gone out, in order. -/
structure Drained (s : ByteArray) (stream : SocketStream Byte) (n : ℕ) (t : Transfer) : Prop where
  buffer : t.1 = s.advance n
  sent : t.2.sent = stream.sent ++ (s.bytes.drop s.position).take n
  connected : t.2.connected = stream.connected

/-- The entries that `read` passes to `recvmsg`. -/
def readEntries (s : ByteArray) (fresh : ℕ → ℕ → Byte) (length : ℕ) : ℕ :=
  match s.getWriteBuffers fresh length with
  | .ok r => r.1.2.length
  | .error _ => 0

/-- The entries that `write` passes to `sendmsg`. -/
def writeEntries (s : ByteArray) (length : ℕ) : ℕ := (s.getReadBuffers length).2.length

theorem readEntries_le (h : s.WellFormed) (hpos : 0 < length) (hfits : s.Fits length)
    (fresh : ℕ → ℕ → Byte) (limit : ℕ) :
    readEntries s fresh length ≤ limit ↔ s.position % s.baseSize + length ≤ limit * s.baseSize := by
  obtain ⟨s₁, hgrown, hroom, hbuffers⟩ := ByteArray.getWriteBuffers_eq fresh h hpos hfits
  rw [readEntries, hbuffers, ← hgrown.position, ← hgrown.baseSize]
  exact ByteArray.length_buffersAt_le hgrown.wellFormed hpos hroom limit

theorem writeEntries_le (h : s.WellFormed) (length : ℕ) (hpos : 0 < min length s.getReadSize)
    (limit : ℕ) :
    writeEntries s length ≤ limit ↔
      s.position % s.baseSize + min length s.getReadSize ≤ limit * s.baseSize := by
  have hread : s.getReadBuffers length = s.buffersAt (min length s.getReadSize) s.position := by
    rw [ByteArray.getReadBuffers]
    show (if min length s.getReadSize = 0 then _ else _) = _
    rw [if_neg (Nat.ne_of_gt hpos)]
  have hroom : s.position + min length s.getReadSize ≤ s.capacity := by
    have hsize := h.size
    have hposition := h.position
    rw [ByteArray.getReadSize]
    omega
  rw [writeEntries, hread]
  exact ByteArray.length_buffersAt_le h hpos hroom limit

/-- What goes in does not change how many blocks are needed, and can only lower the
number of those that are left. -/
theorem offset_add_le {p n length limit b : ℕ} (hle : n ≤ length)
    (hlimit : p % b + length ≤ limit * b) : (p + n) % b + (length - n) ≤ limit * b := by
  have hdiv := Nat.div_add_mod p b
  have hdiv' := Nat.div_add_mod (p + n) b
  have hmono : b * (p / b) ≤ b * ((p + n) / b) :=
    Nat.mul_le_mul_left b (Nat.div_le_div_right (Nat.le_add_right p n))
  omega

theorem finish_ok {result : Int} {buffer buffer' : ByteArray} (hpos : 0 < result)
    (hset : buffer.setPosition (buffer.position + result.toNat) = .ok buffer') :
    finish result buffer stream = .ok (narrow result) (buffer', stream) := by
  rw [finish, if_pos hpos, hset]

/-- Within the limit the entries do not matter. -/
theorem vectorAnswer_eq {entries : ℕ} (hentries : entries ≤ vectorMax) (total : ℕ) :
    stream.vectorAnswer kernel entries total = kernel stream.results.length total := by
  rw [vectorAnswer, if_neg (Nat.not_lt.mpr hentries)]

/-- There are bytes to transfer, and entries for them. -/
theorem asked {buffers : List Iovec} {total : ℕ} (hpos : 0 < total)
    (hentries : ∀ limit, buffers.length ≤ limit ↔ n + total ≤ limit * b) :
    ¬ (total = 0 ∨ buffers = []) := by
  rintro (hzero | rfl)
  · omega
  · have hzero := (hentries 0).mp (Nat.le_refl 0)
    omega

/-- `read` asks for what the buffers hold. -/
theorem readBuffer_eq {buffers : List Iovec} {s₁ : ByteArray} (kernel : Kernel) (fresh : Fresh)
    (hconnected : stream.connected = true) (hpos : 0 < n)
    (hbuffers : s.getWriteBuffers (fresh stream.results.length) n = .ok ((n, buffers), s₁))
    (hsome : ¬ (n = 0 ∨ buffers = [])) {r : Int}
    (hr : stream.vectorAnswer kernel buffers.length n = r) :
    readBuffer kernel fresh n (s, stream) =
      finish r (s₁.fill buffers (stream.upcoming r.toNat))
        { stream.record r with received := stream.received + r.toNat } := by
  rw [readBuffer]
  show (if stream.connected = false then _ else if n = 0 then _ else _) = _
  rw [if_neg (by rw [hconnected]; decide), if_neg (Nat.ne_of_gt hpos), hbuffers]
  show (if n = 0 ∨ buffers = [] then _ else
    finish (stream.vectorAnswer kernel buffers.length n) _ _) = _
  rw [if_neg hsome, hr]

/-- `write` asks for what is readable. -/
theorem writeBuffer_eq (kernel : Kernel) (hconnected : stream.connected = true) (hpos : 0 < n)
    (htotal : (s.getReadBuffers n).1 = n)
    (hsome : ¬ (n = 0 ∨ (s.getReadBuffers n).2 = [])) {r : Int}
    (hr : stream.vectorAnswer kernel (s.getReadBuffers n).2.length n = r) :
    writeBuffer kernel n (s, stream) =
      finish r s { stream.record r with
        sent := stream.sent ++ ((s.getReadBuffers n).2.flatMap s.contents).take r.toNat } := by
  rw [writeBuffer]
  show (if stream.connected = false then _ else if n = 0 then _ else
    if (s.getReadBuffers n).1 = 0 ∨ (s.getReadBuffers n).2 = [] then _ else
      finish (stream.vectorAnswer kernel (s.getReadBuffers n).2.length (s.getReadBuffers n).1) s _) = _
  rw [htotal, if_neg (by rw [hconnected]; decide), if_neg (Nat.ne_of_gt hpos), if_neg hsome, hr]

/-- **`read`** within the limit: some bytes come in behind the cursor. -/
theorem readBuffer_ok (hkernel : Generous kernel) (fresh : Fresh)
    (hconnected : stream.connected = true) (h : s.WellFormed) (hpos : 0 < n) (hfits : s.Fits n)
    (hlimit : s.position % s.baseSize + n ≤ vectorMax * s.baseSize) :
    ∃ (r : Int) (s' : ByteArray), readBuffer kernel fresh n (s, stream) =
        .ok r (s', { stream.record r with received := stream.received + r.toNat }) ∧
      0 < r ∧ r.toNat ≤ n ∧ s'.WellFormed ∧ s'.baseSize = s.baseSize ∧
      s'.position = s.position + r.toNat ∧
      s'.bytes = splice s.bytes s.position (stream.upcoming r.toNat) := by
  obtain ⟨s₁, hgrown, hroom, hbuffers⟩ :=
    ByteArray.getWriteBuffers_eq (fresh stream.results.length) h hpos hfits
  have hcount := ByteArray.length_buffersAt_le hgrown.wellFormed hpos hroom
  obtain ⟨r, hr⟩ : ∃ r, kernel stream.results.length n = r := ⟨_, rfl⟩
  have hbound := hkernel stream.results.length n hpos
  rw [hr] at hbound
  have hlength : (stream.upcoming r.toNat).length ≤ n := by
    rw [length_upcoming]
    omega
  have hfill := ByteArray.setPosition_fill hgrown.wellFormed hroom hlength
  rw [length_upcoming] at hfill
  obtain ⟨s', hbytes, hwell, hbase, hposition, -, -, -, hcontents⟩ :=
    ByteArray.writeBytes_ok (stream.upcoming r.toNat) hgrown.wellFormed (by omega)
  rw [length_upcoming] at hposition
  generalize (s₁.buffersAt n s₁.position).2 = buffers at hbuffers hcount hfill
  have hentries : buffers.length ≤ vectorMax := by
    rw [hcount, hgrown.position, hgrown.baseSize]
    exact hlimit
  have hmoved : (s₁.fill buffers (stream.upcoming r.toNat)).setPosition
      ((s₁.fill buffers (stream.upcoming r.toNat)).position + r.toNat) = .ok s' := by
    have hsame : (s₁.fill buffers (stream.upcoming r.toNat)).position = s₁.position := by
      rw [ByteArray.fill_eq]
    rw [hsame, hfill, hbytes]
  have hnarrow : narrow r = r := by
    rw [← hr, narrow_generous hkernel hpos]
  refine ⟨r, s', ?_, by omega, by omega, hwell, hbase.trans hgrown.baseSize, ?_, ?_⟩
  · rw [readBuffer_eq kernel fresh hconnected hpos hbuffers (asked hpos hcount)
      ((vectorAnswer_eq hentries n).trans hr), finish_ok (by omega) hmoved, hnarrow]
  · rw [hposition, hgrown.position]
  · rw [hcontents, hgrown.bytes h, hgrown.position]

/-- **One round** of `readFixSize`. -/
theorem readBuffer_step (hkernel : Generous kernel) (fresh : Fresh)
    (hconnected : stream.connected = true) (hs : s.WellFormed) (hfits : s.Fits length)
    (hlimit : s.position % s.baseSize + length ≤ vectorMax * s.baseSize) (hlt : n < length)
    {t : Transfer} (h : Filled s stream n t) :
    ∃ r t', readBuffer kernel fresh (length - n) t = .ok r t' ∧ 0 < r ∧ n + r.toNat ≤ length ∧
      Filled s stream (n + r.toNat) t' := by
  obtain ⟨buffer, current⟩ := t
  obtain ⟨hwell, hbase, hposition, hbytes, hincoming, hreceived, hopen⟩ := h
  have hsum : s.position + n + (length - n) = s.position + length := by omega
  have hfits' : buffer.Fits (length - n) := by
    rw [ByteArray.Fits, hposition, hbase, hsum]
    exact hfits
  have hlimit' : buffer.position % buffer.baseSize + (length - n) ≤ vectorMax * buffer.baseSize := by
    rw [hposition, hbase]
    exact offset_add_le (Nat.le_of_lt hlt) hlimit
  obtain ⟨r, s', hrun, hpos, hle, hwell', hbase', hposition', hbytes'⟩ :=
    readBuffer_ok hkernel fresh (hopen.trans hconnected) hwell (Nat.sub_pos_of_lt hlt) hfits' hlimit'
  refine ⟨r, _, hrun, hpos, by omega, hwell', hbase'.trans hbase, ?_, ?_, hincoming, ?_, hopen⟩
  · show s'.position = s.position + (n + r.toNat)
    rw [hposition', hposition, Nat.add_assoc]
  · have hnext : current.upcoming r.toNat =
        { stream with received := stream.received + n }.upcoming r.toNat := by
      rw [upcoming, upcoming, hincoming, hreceived]
    have hstart : s.position ≤ s.bytes.length := by
      rw [hs.length_bytes]
      exact hs.position
    show s'.bytes = _
    rw [hbytes', hbytes, hposition, hnext, upcoming_add, splice_append hstart, length_upcoming]
  · show current.received + r.toNat = stream.received + (n + r.toNat)
    rw [hreceived, Nat.add_assoc]

/-- **`write`** within the limit: some bytes go out from the cursor on. -/
theorem writeBuffer_ok (hkernel : Generous kernel) (hconnected : stream.connected = true)
    (h : s.WellFormed) (hpos : 0 < n) (hle : n ≤ s.getReadSize)
    (hlimit : s.position % s.baseSize + n ≤ vectorMax * s.baseSize) :
    ∃ r : Int, writeBuffer kernel n (s, stream) = .ok r (s.advance r.toNat,
        { stream.record r with
          sent := stream.sent ++ ((s.bytes.drop s.position).take n).take r.toNat }) ∧
      0 < r ∧ r.toNat ≤ n := by
  have hall : min n s.getReadSize = n := Nat.min_eq_left hle
  have hcount := writeEntries_le h n (by omega)
  rw [hall] at hcount
  obtain ⟨htotal, hcontents⟩ := ByteArray.getReadBuffers_eq h n
  have hposition := h.position
  rw [← ByteArray.getReadSize, hall] at htotal hcontents
  have hentries : (s.getReadBuffers n).2.length ≤ vectorMax := (hcount vectorMax).mpr hlimit
  obtain ⟨r, hr⟩ : ∃ r, kernel stream.results.length n = r := ⟨_, rfl⟩
  have hbound := hkernel stream.results.length n hpos
  rw [hr] at hbound
  have hwithin : s.position + r.toNat ≤ s.size := by
    rw [ByteArray.getReadSize] at hle
    omega
  have hnarrow : narrow r = r := by
    rw [← hr, narrow_generous hkernel hpos]
  refine ⟨r, ?_, by omega, by omega⟩
  rw [writeBuffer_eq kernel hconnected hpos htotal (asked hpos hcount)
    ((vectorAnswer_eq hentries n).trans hr), hcontents,
    finish_ok (by omega) (setPosition_within h hwithin), hnarrow]
  rfl

/-- **One round** of `writeFixSize`. -/
theorem writeBuffer_step (hkernel : Generous kernel) (hconnected : stream.connected = true)
    (hs : s.WellFormed) (hle : length ≤ s.getReadSize)
    (hlimit : s.position % s.baseSize + length ≤ vectorMax * s.baseSize) (hlt : n < length)
    {t : Transfer} (h : Drained s stream n t) :
    ∃ r t', writeBuffer kernel (length - n) t = .ok r t' ∧ 0 < r ∧ n + r.toNat ≤ length ∧
      Drained s stream (n + r.toNat) t' := by
  obtain ⟨buffer, current⟩ := t
  obtain ⟨hbuffer, hsent, hopen⟩ := h
  have hbuffer : buffer = s.advance n := hbuffer
  subst hbuffer
  have hreadable : (s.advance n).getReadSize = s.getReadSize - n := by
    show s.size - (s.position + n) = s.size - s.position - n
    omega
  have hwell : (s.advance n).WellFormed :=
    wellFormed_advance hs (Nat.le_trans (Nat.le_of_lt hlt) hle)
  obtain ⟨r, hrun, hpos, hwithin⟩ := writeBuffer_ok hkernel (hopen.trans hconnected) hwell
    (Nat.sub_pos_of_lt hlt) (by omega) (offset_add_le (Nat.le_of_lt hlt) hlimit)
  refine ⟨r, _, hrun, hpos, by omega, ByteArray.advance_advance s n r.toNat, ?_, hopen⟩
  show current.sent ++ ((s.bytes.drop (s.position + n)).take (length - n)).take r.toNat = _
  rw [hsent, List.take_take, Nat.min_eq_left hwithin, List.append_assoc, List.take_add,
    List.drop_drop]

/-! ### Whole transfers -/

/-- All bytes come in, whatever the calls return. -/
def ReadCompletes (s : ByteArray) (length : ℕ) : Prop :=
  ∀ kernel, Generous kernel → ∀ fresh (stream : SocketStream Byte), stream.connected = true →
    ∃ t, readFixSizeBuffer kernel fresh length (s, stream) = .ok (narrow length) t ∧
      Filled s stream length t

/-- All bytes go out, whatever the calls return. -/
def WriteCompletes (s : ByteArray) (length : ℕ) : Prop :=
  ∀ kernel, Generous kernel → ∀ stream : SocketStream Byte, stream.connected = true →
    ∃ t, writeFixSizeBuffer kernel length (s, stream) = .ok (narrow length) t ∧
      Drained s stream length t

theorem filled_zero (h : s.WellFormed) (stream : SocketStream Byte) :
    Filled s stream 0 (s, stream) := by
  refine ⟨h, rfl, rfl, ?_, rfl, rfl, rfl⟩
  rw [upcoming, List.range_zero, List.map_nil, splice_nil]

theorem drained_zero (s : ByteArray) (stream : SocketStream Byte) :
    Drained s stream 0 (s, stream) := ⟨rfl, (List.append_nil _).symm, rfl⟩

theorem readCompletes_of_limit (h : s.WellFormed) (hfits : s.Fits length)
    (hlimit : s.position % s.baseSize + length ≤ vectorMax * s.baseSize) :
    ReadCompletes s length := fun _ hkernel fresh stream hconnected =>
  fixSizeLoop_all (Filled s stream)
    (fun _ hlt _ ht => readBuffer_step hkernel fresh hconnected h hfits hlimit hlt ht)
    (filled_zero h stream)

theorem writeCompletes_of_limit (h : s.WellFormed) (hle : length ≤ s.getReadSize)
    (hlimit : s.position % s.baseSize + length ≤ vectorMax * s.baseSize) :
    WriteCompletes s length := fun _ hkernel stream hconnected =>
  fixSizeLoop_all (Drained s stream)
    (fun _ hlt _ ht => writeBuffer_step hkernel hconnected h hle hlimit hlt ht)
    (drained_zero s stream)

/-- What `read` does beyond the limit: nothing comes in. -/
theorem readFixSizeBuffer_over (kernel : Kernel) (fresh : Fresh) (stream : SocketStream Byte)
    (hconnected : stream.connected = true) (h : s.WellFormed) (hpos : 0 < length) (hfits : s.Fits length)
    (hover : ¬ s.position % s.baseSize + length ≤ vectorMax * s.baseSize) :
    ∃ t : Transfer, readFixSizeBuffer kernel fresh length (s, stream) = .ok (-1) t ∧
      t.1.position = s.position := by
  obtain ⟨s₁, hgrown, hroom, hbuffers⟩ :=
    ByteArray.getWriteBuffers_eq (fresh stream.results.length) h hpos hfits
  have hcount := ByteArray.length_buffersAt_le hgrown.wellFormed hpos hroom
  rw [hgrown.position, hgrown.baseSize] at hcount
  rw [hgrown.position] at hbuffers
  generalize (s₁.buffersAt length s.position).2 = buffers at hbuffers hcount
  have hentries : buffers.length > vectorMax := Nat.not_le.mp (mt (hcount vectorMax).mp hover)
  have hcall := readBuffer_eq kernel fresh hconnected hpos hbuffers (asked hpos hcount)
    (if_pos hentries)
  refine ⟨_, (fixSizeLoop_step hpos hcall).trans (if_pos (by decide)), ?_⟩
  show (s₁.fill buffers []).position = s.position
  rw [ByteArray.fill_eq]
  exact hgrown.position

/-- What `write` does beyond the limit: nothing goes out. -/
theorem writeFixSizeBuffer_over (kernel : Kernel) (stream : SocketStream Byte)
    (hconnected : stream.connected = true) (h : s.WellFormed) (hpos : 0 < length)
    (hle : length ≤ s.getReadSize)
    (hover : ¬ s.position % s.baseSize + length ≤ vectorMax * s.baseSize) :
    ∃ t : Transfer, writeFixSizeBuffer kernel length (s, stream) = .ok (-1) t ∧
      t.1.position = s.position := by
  have hall : min length s.getReadSize = length := Nat.min_eq_left hle
  have hcount := writeEntries_le h length (by omega)
  rw [hall] at hcount
  obtain ⟨htotal, -⟩ := ByteArray.getReadBuffers_eq h length
  rw [← ByteArray.getReadSize, hall] at htotal
  have hentries : (s.getReadBuffers length).2.length > vectorMax :=
    Nat.not_le.mp (mt (hcount vectorMax).mp hover)
  have hcall := writeBuffer_eq kernel hconnected hpos htotal (asked hpos hcount) (if_pos hentries)
  exact ⟨_, (fixSizeLoop_step hpos hcall).trans (if_pos (by decide)), rfl⟩

/-- For what cannot be counted `read` throws. -/
theorem readFixSizeBuffer_error (kernel : Kernel) (fresh : Fresh)
    (hconnected : stream.connected = true) (h : s.WellFormed) (hfits : ¬ s.Fits length) :
    readFixSizeBuffer kernel fresh length (s, stream) = .error .lengthError (s, stream) := by
  have hpos : 0 < length := by
    refine Nat.pos_of_ne_zero ?_
    rintro rfl
    exact hfits (h.fits_of_le (Nat.le_trans h.position h.size))
  have hcall : readBuffer kernel fresh length (s, stream) = .error .lengthError (s, stream) := by
    rw [readBuffer]
    show (if stream.connected = false then _ else if length = 0 then _ else _) = _
    rw [if_neg (by rw [hconnected]; decide), if_neg (Nat.ne_of_gt hpos),
      ByteArray.getWriteBuffers_error h hfits]
  exact fixSizeLoop_error hpos hcall

theorem fullKernel_generous : Generous fullKernel := by
  intro call requested hpos
  have hmax : transferMax = 0x7ffff000 := rfl
  rw [fullKernel]
  omega

/-- Nothing is asked for, or the entries are within the limit. -/
theorem zero_limit (h : s.WellFormed) : s.position % s.baseSize + 0 ≤ vectorMax * s.baseSize := by
  have hlt : s.position % s.baseSize < s.baseSize := Nat.mod_lt _ h.base
  rw [vectorMax]
  omega

theorem readCompletes_iff (h : s.WellFormed) (length : ℕ) :
    ReadCompletes s length ↔
      s.Fits length ∧ s.position % s.baseSize + length ≤ vectorMax * s.baseSize := by
  constructor
  · intro hall
    obtain ⟨t, hrun, hfilled⟩ := hall fullKernel fullKernel_generous (fun _ _ _ => 0#8)
      ⟨true, fun _ => 0#8, 0, [], []⟩ rfl
    have hfits : s.Fits length := by
      by_contra hnot
      rw [readFixSizeBuffer_error _ _ rfl h hnot] at hrun
      cases hrun
    refine ⟨hfits, ?_⟩
    obtain rfl | hpos := Nat.eq_zero_or_pos length
    · exact zero_limit h
    · by_contra hover
      obtain ⟨t', hrun', hsame⟩ := readFixSizeBuffer_over fullKernel (fun _ _ _ => 0#8)
        ⟨true, fun _ => 0#8, 0, [], []⟩ rfl h hpos hfits hover
      have hsame' : t' = t := (EStateM.Result.ok.inj (hrun'.symm.trans hrun)).2
      have hmoved := hfilled.position
      rw [hsame'] at hsame
      omega
  · rintro ⟨hfits, hlimit⟩
    exact readCompletes_of_limit h hfits hlimit

theorem writeCompletes_iff (h : s.WellFormed) (hle : length ≤ s.getReadSize) :
    WriteCompletes s length ↔ s.position % s.baseSize + length ≤ vectorMax * s.baseSize := by
  constructor
  · intro hall
    obtain ⟨t, hrun, hdrained⟩ := hall fullKernel fullKernel_generous
      ⟨true, fun _ => 0#8, 0, [], []⟩ rfl
    obtain rfl | hpos := Nat.eq_zero_or_pos length
    · exact zero_limit h
    · by_contra hover
      obtain ⟨t', hrun', hsame⟩ := writeFixSizeBuffer_over fullKernel
        ⟨true, fun _ => 0#8, 0, [], []⟩ rfl h hpos hle hover
      have hsame' : t' = t := (EStateM.Result.ok.inj (hrun'.symm.trans hrun)).2
      rw [hsame', hdrained.buffer] at hsame
      have hsame : s.position + length = s.position := hsame
      omega
  · exact writeCompletes_of_limit h hle

theorem readEntries_iff (h : s.WellFormed) (length : ℕ) :
    (∀ fresh, readEntries s fresh length ≤ vectorMax) ↔
      (s.Fits length → s.position % s.baseSize + length ≤ vectorMax * s.baseSize) := by
  obtain rfl | hpos := Nat.eq_zero_or_pos length
  · exact iff_of_true (fun _ => Nat.zero_le _) fun _ => zero_limit h
  · by_cases hfits : s.Fits length
    · simp only [readEntries_le h hpos hfits, forall_const, hfits]
    · refine iff_of_true (fun fresh => ?_) fun hyes => absurd hyes hfits
      rw [readEntries, ByteArray.getWriteBuffers_error h hfits]
      exact Nat.zero_le _

theorem writeEntries_iff (h : s.WellFormed) (length : ℕ) :
    writeEntries s length ≤ vectorMax ↔
      s.position % s.baseSize + min length s.getReadSize ≤ vectorMax * s.baseSize := by
  obtain hzero | hpos := Nat.eq_zero_or_pos (min length s.getReadSize)
  · have hnone : writeEntries s length = 0 := by
      rw [writeEntries, ByteArray.getReadBuffers]
      show (if min length s.getReadSize = 0 then _ else _ : ℕ × List Iovec).2.length = 0
      rw [if_pos hzero]
      rfl
    rw [hzero, hnone]
    exact iff_of_true (Nat.zero_le _) (zero_limit h)
  · exact writeEntries_le h length hpos vectorMax

/-- **The limit of the kernel**, for any state that the calls can reach and any length:
the calls keep it, and all bytes come in or go out, exactly if the bytes, with those in
front of the cursor in its block, fill no more than `vectorMax` blocks. -/
theorem vector_limit_iff (hs : ByteArray.system.Reachable s) (length : ℕ) :
    ((∀ fresh, readEntries s fresh length ≤ vectorMax) ↔
      (s.Fits length → s.position % s.baseSize + length ≤ vectorMax * s.baseSize)) ∧
    (ReadCompletes s length ↔
      s.Fits length ∧ s.position % s.baseSize + length ≤ vectorMax * s.baseSize) ∧
    (writeEntries s length ≤ vectorMax ↔
      s.position % s.baseSize + min length s.getReadSize ≤ vectorMax * s.baseSize) ∧
    (length ≤ s.getReadSize → (WriteCompletes s length ↔
      s.position % s.baseSize + length ≤ vectorMax * s.baseSize)) := by
  have h := ByteArray.wellFormed_of_reachable hs
  exact ⟨readEntries_iff h length, readCompletes_iff h length, writeEntries_iff h length,
    fun hle => writeCompletes_iff h hle⟩

/-- An empty buffer of blocks of four bytes: so much can be read into it. -/
theorem vector_limit_iff_new : ∃ s, ByteArray.create 4 (fun _ => 0#8) = .ok s ∧
    (ReadCompletes s 4096 ↔
      s.Fits 4096 ∧ s.position % s.baseSize + 4096 ≤ vectorMax * s.baseSize) ∧
    s.position % s.baseSize + 4096 ≤ vectorMax * s.baseSize := by
  obtain ⟨s, hs, hreach⟩ := ByteArray.exists_new (b := 4) (by decide) (by decide)
  refine ⟨s, hs, (vector_limit_iff hreach 4096).2.1, ?_⟩
  obtain rfl := Except.ok.inj hs
  decide

/-- Blocks of one byte: one more than the limit. -/
theorem not_vector_limit : ∃ s, ByteArray.create 1 (fun _ => 0#8) = .ok s ∧ s.Fits 1025 ∧
    (∀ fresh, vectorMax < readEntries s fresh 1025) ∧ ¬ ReadCompletes s 1025 := by
  obtain ⟨s, hs, hreach⟩ := ByteArray.exists_new (b := 1) (by decide) (by decide)
  have h := ByteArray.wellFormed_of_reachable hreach
  have hfits : s.Fits 1025 := by
    obtain rfl := Except.ok.inj hs
    rw [ByteArray.Fits, sizeMax_eq]
    decide
  have hover : ¬ s.position % s.baseSize + 1025 ≤ vectorMax * s.baseSize := by
    obtain rfl := Except.ok.inj hs
    decide
  refine ⟨s, hs, hfits, fun fresh => ?_, fun hall => hover ((readCompletes_iff h 1025).mp hall).2⟩
  exact Nat.not_le.mp (mt (readEntries_le h (by decide) hfits fresh vectorMax).mp hover)

end SocketStream

end Stream
