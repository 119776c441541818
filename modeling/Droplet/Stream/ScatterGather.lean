/-
Scatter and gather.

`getWriteBuffers` hands out parts of the blocks behind the cursor.  Filling them and
moving the cursor behind what was filled in comes to a `write`, whatever they held
before and however much of them is left; `getReadBuffers` leads to what `read` returns.

* `fill` — bytes put into buffers, one buffer after the other;
* `Segments` — parts of blocks that do not overlap;
* `setPosition_fill` — the loop that hands out buffers stops where the loop of `write`
  does;
* `scatter_gather` — no reading call tells filling from writing.
-/
import Droplet.Stream.Reading

open Splice TwoRuns Transition Transition.System

namespace Stream

/-- No byte belongs to both. -/
def Iovec.Apart (a b : Iovec) : Prop :=
  a.node ≠ b.node ∨ a.offset + a.length ≤ b.offset ∨ b.offset + b.length ≤ a.offset

namespace ByteArray

variable {s : ByteArray} {nodes front : List (List Byte)} {k offset remaining n : ℕ}
  {source : List Byte}

/-- Bytes are put where a buffer leads to. -/
def fillBuffer (s : ByteArray) (buffer : Iovec) (bytes : List Byte) : ByteArray :=
  { s with nodes := s.nodes.modify buffer.node fun node => splice node buffer.offset bytes }

/-- The buffers are filled in their order, as far as the bytes go. -/
def fill : ByteArray → List Iovec → List Byte → ByteArray
  | s, [], _ => s
  | s, buffer :: rest, source =>
    fill (s.fillBuffer buffer (source.take buffer.length)) rest (source.drop buffer.length)

/-- Only the blocks change. -/
theorem fill_eq (s : ByteArray) (buffers : List Iovec) (source : List Byte) :
    s.fill buffers source = { s with nodes := (s.fill buffers source).nodes } := by
  induction buffers generalizing s source with
  | nil => rfl
  | cons buffer rest ih =>
    rw [fill, ih]
    rfl

theorem fill_nil (s : ByteArray) (buffers : List Iovec) : (s.fill buffers []).nodes = s.nodes := by
  induction buffers generalizing s with
  | nil => rfl
  | cons buffer rest ih =>
    have hsame : (s.fillBuffer buffer []).nodes = s.nodes := by
      show s.nodes.modify buffer.node (fun node => splice node buffer.offset []) = s.nodes
      simp only [splice_nil]
      exact List.modify_id buffer.node s.nodes
    rw [fill, List.take_nil, List.drop_nil, ih, hsame]

/-- What two bounds on a part have in common when the source is shorter than one. -/
theorem take_min_eq (hle : source.length ≤ remaining) (room : ℕ) :
    source.take (min remaining room) = source.take (min source.length room) ∧
      source.drop (min remaining room) = source.drop (min source.length room) := by
  by_cases hroom : source.length ≤ room
  · rw [Nat.min_eq_left hroom, List.take_length, List.drop_length,
      List.take_of_length_le (by omega), List.drop_of_length_le (by omega)]
    exact ⟨rfl, rfl⟩
  · rw [Nat.min_eq_right (by omega), Nat.min_eq_right (by omega)]
    exact ⟨rfl, rfl⟩

/-- **Filling** the buffers from a block on leaves what the loop of `write` leaves. -/
theorem fill_buffersLoop (offset : ℕ) (hnodes : s.nodes = front ++ nodes) (hk : front.length = k)
    (hle : source.length ≤ remaining) :
    (s.fill (buffersLoop nodes k offset remaining).1 source).nodes =
      front ++ (writeLoop nodes offset source).1 := by
  induction nodes generalizing s front k offset remaining source with
  | nil => exact hnodes
  | cons node rest ih =>
    by_cases hnil : source = []
    · rw [hnil, fill_nil, hnodes, writeLoop, if_pos rfl]
    · have hpos : 0 < source.length := List.length_pos_of_ne_nil hnil
      obtain ⟨htake, hdrop⟩ := take_min_eq hle (node.length - offset)
      rw [buffersLoop, if_neg (by omega), writeLoop, if_neg hnil]
      show ((s.fillBuffer ⟨k, offset, min remaining (node.length - offset)⟩
          (source.take (min remaining (node.length - offset)))).fill
        (buffersLoop rest (k + 1) 0 (remaining - min remaining (node.length - offset))).1
        (source.drop (min remaining (node.length - offset)))).nodes =
        front ++ splice node offset (source.take (min source.length (node.length - offset))) ::
          (writeLoop rest 0 (source.drop (min source.length (node.length - offset)))).1
      rw [List.append_cons, ← htake, ← hdrop]
      refine ih 0 ?_ (by rw [List.length_append, hk, List.length_singleton]) ?_
      · show s.nodes.modify k _ = _
        rw [hnodes, ← hk, List.modify_eq_take_drop, List.take_left, List.drop_left,
          List.modifyHead_cons, List.append_assoc]
        rfl
      · rw [List.length_drop]
        omega

/-! ### Segments -/

/-- Parts of blocks that do not overlap, of so many bytes. -/
structure Segments (s : ByteArray) (buffers : List Iovec) (n : ℕ) : Prop where
  within : ∀ buffer ∈ buffers, ∃ node, s.nodes[buffer.node]? = some node ∧
    buffer.offset + buffer.length ≤ node.length
  apart : buffers.Pairwise Iovec.Apart
  total : (buffers.map Iovec.length).sum = n

/-- The buffers from a block on are in later and later blocks. -/
theorem buffersLoop_segments (remaining : ℕ) (hnodes : s.nodes = front ++ nodes)
    (hk : front.length = k) (hoffset : InFirst nodes offset) :
    (∀ buffer ∈ (buffersLoop nodes k offset remaining).1, k ≤ buffer.node ∧
        ∃ node, s.nodes[buffer.node]? = some node ∧ buffer.offset + buffer.length ≤ node.length) ∧
      (buffersLoop nodes k offset remaining).1.Pairwise (fun a b => a.node < b.node) ∧
      ((buffersLoop nodes k offset remaining).1.map Iovec.length).sum +
        (buffersLoop nodes k offset remaining).2 = remaining := by
  induction nodes generalizing front k offset remaining with
  | nil => exact ⟨fun _ hmem => absurd hmem List.not_mem_nil, .nil, Nat.zero_add _⟩
  | cons node rest ih =>
    have hle : offset ≤ node.length := hoffset node rfl
    rw [buffersLoop]
    by_cases hzero : remaining = 0
    · rw [if_pos hzero, hzero]
      exact ⟨fun _ hmem => absurd hmem List.not_mem_nil, .nil, rfl⟩
    · have hnodes' : s.nodes = front ++ [node] ++ rest := by rw [hnodes, ← List.append_cons]
      have hk' : (front ++ [node]).length = k + 1 := by
        rw [List.length_append, hk, List.length_singleton]
      obtain ⟨hwithin, hordered, htotal⟩ :=
        ih (remaining - min remaining (node.length - offset)) hnodes' hk' (inFirst_zero rest)
      rw [if_neg hzero]
      refine ⟨?_, ?_, ?_⟩
      · intro buffer hbuffer
        obtain rfl | hmem := List.mem_cons.mp hbuffer
        · refine ⟨Nat.le_refl k, node, ?_, ?_⟩
          · show s.nodes[k]? = some node
            rw [hnodes, ← hk, List.getElem?_append_right (Nat.le_refl _), Nat.sub_self]
            rfl
          · show offset + min remaining (node.length - offset) ≤ node.length
            omega
        · obtain ⟨hlater, hblock⟩ := hwithin buffer hmem
          exact ⟨by omega, hblock⟩
      · refine List.Pairwise.cons ?_ hordered
        intro buffer hmem
        exact (hwithin buffer hmem).1
      · show min remaining (node.length - offset) +
          ((buffersLoop rest (k + 1) 0 (remaining - min remaining (node.length - offset))).1.map
            Iovec.length).sum +
          (buffersLoop rest (k + 1) 0 (remaining - min remaining (node.length - offset))).2 = remaining
        omega

theorem nodeAt_le (nodes : List (List Byte)) (position : ℕ) :
    (nodeAt nodes position).1 ≤ nodes.length := by
  induction nodes generalizing position with
  | nil => exact Nat.le_refl 0
  | cons node rest ih =>
    rw [nodeAt]
    by_cases hge : position ≥ node.length
    · rw [if_pos hge]
      exact Nat.succ_le_succ (ih _)
    · rw [if_neg hge]
      exact Nat.zero_le _

/-- The blocks in front of a position. -/
theorem length_take_nodeAt (nodes : List (List Byte)) (position : ℕ) :
    (nodes.take (nodeAt nodes position).1).length = (nodeAt nodes position).1 := by
  rw [List.length_take, Nat.min_eq_left (nodeAt_le nodes position)]

/-- There is room behind a position. -/
theorem room_nodeAt (h : s.WellFormed) {position : ℕ} (hle : position + n ≤ s.capacity) :
    (nodeAt s.nodes position).2 + n ≤ (s.nodes.drop (nodeAt s.nodes position).1).flatten.length := by
  obtain ⟨hsum, -⟩ := nodeAt_spec s.nodes position
  have hlength := h.length_flatten
  rw [flatten_nodeAt s.nodes position, List.length_append] at hlength
  omega

theorem segments_buffersAt (h : s.WellFormed) {position : ℕ} (hle : position + n ≤ s.capacity) :
    Segments s (s.buffersAt n position).2 n := by
  obtain ⟨-, hfirst⟩ := nodeAt_spec s.nodes position
  have hroom := room_nodeAt h hle
  obtain ⟨hwithin, hordered, htotal⟩ := buffersLoop_segments n
    (List.take_append_drop (nodeAt s.nodes position).1 s.nodes).symm
    (length_take_nodeAt s.nodes position) hfirst
  obtain ⟨-, hleft⟩ := buffersLoop_eq (s := s) n rfl hfirst
  refine ⟨fun buffer hbuffer => (hwithin buffer hbuffer).2, ?_, ?_⟩
  · exact hordered.imp fun hlt => .inl (Nat.ne_of_lt hlt)
  · rw [hleft] at htotal
    have hnone : n - ((s.nodes.drop (nodeAt s.nodes position).1).flatten.length -
      (nodeAt s.nodes position).2) = 0 := by omega
    rwa [hnone, Nat.add_zero] at htotal

/-- **Filling** the buffers of `getWriteBuffers` and moving the cursor is writing. -/
theorem setPosition_fill (h : s.WellFormed) (hle : s.position + n ≤ s.capacity)
    (hsource : source.length ≤ n) :
    (s.fill (s.buffersAt n s.position).2 source).setPosition (s.position + source.length) =
      s.writeBytes source := by
  obtain ⟨-, hfirst⟩ := nodeAt_spec s.nodes s.position
  have hroom := room_nodeAt h hle
  obtain ⟨hnone, -, -⟩ := writeLoop_eq source hfirst (by omega)
  have hfill := fill_buffersLoop (nodeAt s.nodes s.position).2
    (List.take_append_drop (nodeAt s.nodes s.position).1 s.nodes).symm
    (length_take_nodeAt s.nodes s.position) hsource
  have hstate := s.fill_eq (s.buffersAt n s.position).2 source
  have hcapacity : ¬ s.position + source.length > s.capacity := by omega
  rw [hstate, setPosition, if_neg hcapacity]
  show _ = if (writeLoop _ _ source).2 ≠ [] then _ else _
  rw [if_neg (not_not.mpr hnone), ← hfill]
  rfl

/-- The buffers that are handed out for what fits. -/
theorem getWriteBuffers_eq (fresh : ℕ → ℕ → Byte) (h : s.WellFormed) (hpos : 0 < n)
    (hfits : s.Fits n) : ∃ s₁, Grown s s₁ ∧ s₁.position + n ≤ s₁.capacity ∧
      s.getWriteBuffers fresh n = .ok ((n, (s₁.buffersAt n s₁.position).2), s₁) := by
  obtain ⟨s₁, hadd, hgrown, hroom⟩ := addCapacity_ok fresh h hfits
  have hroom₁ : s₁.position + n ≤ s₁.capacity := by rwa [hgrown.position]
  obtain ⟨hcount, -⟩ := buffersAt_eq n s₁.position hgrown.wellFormed hroom₁
  refine ⟨s₁, hgrown, hroom₁, ?_⟩
  rw [getWriteBuffers, if_neg (Nat.ne_of_gt hpos), hadd]
  exact congrArg (fun count => Except.ok ((count, _), s₁)) hcount

/-! ### Reading and writing through buffers -/

/-- What the blocks hold behind the readable end cannot be seen. -/
theorem alike_of_writeBytes (fresh : ℕ → ℕ → Byte) {s₁ : ByteArray} (h : s.WellFormed)
    (hgrown : Grown s s₁) (hroom : s₁.position + source.length ≤ s₁.capacity)
    (hfits : s.Fits source.length) :
    ∃ s₂ t, s₁.writeBytes source = .ok s₂ ∧ s.write fresh source = .ok t ∧ Alike s₂ t := by
  obtain ⟨s₂, hbytes, hwell₂, -, hposition₂, -, hlittle₂, -, hcontents₂⟩ :=
    writeBytes_ok source hgrown.wellFormed hroom
  obtain ⟨t, hwrite, hwell, -, hposition, -, hlittle, -, hcontents⟩ := write_ok fresh h hfits
  refine ⟨s₂, t, hbytes, hwrite, hwell₂, hwell, ?_, ?_, ?_⟩
  · rw [hcontents₂, hcontents, hgrown.bytes h, hgrown.position]
  · rw [hposition₂, hposition, hgrown.position]
  · rw [hlittle₂, hlittle, hgrown.littleEndian]

/-- **Scatter and gather**: from any state that the calls can reach, `getWriteBuffers`
hands out so many bytes in buffers that do not overlap, if the blocks for them can be
counted, and filling some of them and moving the cursor leaves what no reading call
tells from a `write`; otherwise it throws and changes nothing.  `getReadBuffers` leads
to what `read` returns, as far as there is something to read. -/
theorem scatter_gather (hs : system.Reachable s) :
    (∀ fresh n, 1 ≤ n → s.Fits n → ∃ buffers s₁,
      s.getWriteBuffers fresh n = .ok ((n, buffers), s₁) ∧ Segments s₁ buffers n ∧
      ∀ fresh' source, source.length ≤ n → ∃ s₂ t,
        (s₁.fill buffers source).setPosition (s.position + source.length) = .ok s₂ ∧
        s.write fresh' source = .ok t ∧
        ∀ calls, outcome (readings calls s₂) = outcome (readings calls t)) ∧
    (∀ fresh n, 1 ≤ n → ¬ s.Fits n → s.getWriteBuffers fresh n = .error .lengthError ∧
      (s.call (.getWriteBuffers fresh n)).2 = s) ∧
    (∀ length, ∃ buffers bytes s',
      s.getReadBuffers length = (min length s.getReadSize, buffers) ∧
      s.read (min length s.getReadSize) = .ok (bytes, s') ∧ buffers.flatMap s.contents = bytes ∧
      (s.call (.getReadBuffers length)).2 = s) ∧
    ∀ length position, ∃ buffers bytes,
      s.getReadBuffersAt length position = (min length (s.size - position), buffers) ∧
      s.readAt (min length (s.size - position)) position = .ok bytes ∧
      buffers.flatMap s.contents = bytes ∧ (s.call (.getReadBuffersAt length position)).2 = s := by
  have h := wellFormed_of_reachable hs
  refine ⟨?_, ?_, ?_, ?_⟩
  · intro fresh n hpos hfits
    obtain ⟨s₁, hgrown, hroom₁, hbuffers⟩ := getWriteBuffers_eq fresh h hpos hfits
    refine ⟨_, s₁, hbuffers, segments_buffersAt hgrown.wellFormed hroom₁, ?_⟩
    intro fresh' source hsource
    have hfill := setPosition_fill hgrown.wellFormed hroom₁ hsource
    obtain ⟨s₂, t, hbytes, hwrite, halike⟩ := alike_of_writeBytes fresh' h hgrown
      (by omega) (hfits.mono hsource)
    rw [← hgrown.position]
    refine ⟨s₂, t, hfill.trans hbytes, hwrite, fun calls => ?_⟩
    exact (couples_readings cursor_alike calls s₂ t halike).outcome
  · intro fresh n _ hnot
    have herror : s.getWriteBuffers fresh n = .error .lengthError := getWriteBuffers_error h hnot
    refine ⟨herror, ?_⟩
    rw [ByteArray.call, herror]
    rfl
  · intro length
    obtain ⟨hcount, hcontents⟩ := getReadBuffers_eq h length
    have hle : min length s.getReadSize ≤ s.size - s.position := Nat.min_le_right _ _
    have hread : s.read (min length s.getReadSize) = .ok
        ((s.bytes.drop s.position).take (min length s.getReadSize),
          s.advance (min length s.getReadSize)) := by
      rw [read_eq h, if_pos hle]
      rfl
    exact ⟨_, _, _, Prod.ext hcount rfl, hread, hcontents, rfl⟩
  · intro length position
    obtain ⟨hcount, hcontents⟩ := getReadBuffersAt_eq h length position
    have hle : min length (s.size - position) = 0 ∨
        position + min length (s.size - position) ≤ s.size := by omega
    refine ⟨_, _, Prod.ext hcount rfl, ?_, hcontents, rfl⟩
    rw [readAt_eq h, if_pos hle]

/-- A block of three bytes: two of five are filled, and read back. -/
theorem scatter_gather_new : ∃ s buffers s₁, create 3 (fun _ => 0#8) = .ok s ∧
    s.getWriteBuffers (fun _ _ => 9#8) 5 = .ok ((5, buffers), s₁) ∧ Segments s₁ buffers 5 ∧
    ∃ s₂ t, (s₁.fill buffers [1#8, 2#8]).setPosition (s.position + 2) = .ok s₂ ∧
      s.write (fun _ _ => 7#8) [1#8, 2#8] = .ok t ∧
      outcome (readings [.readAt 2 0] s₂) = outcome (readings [.readAt 2 0] t) := by
  obtain ⟨s, hs, hreach⟩ := exists_new (b := 3) (by decide) (by decide)
  have hfits : s.Fits 5 := by
    obtain rfl := Except.ok.inj hs
    rw [Fits, sizeMax_eq]
    decide
  obtain ⟨hwrite, -⟩ := scatter_gather hreach
  obtain ⟨buffers, s₁, hbuffers, hsegments, hfill⟩ := hwrite (fun _ _ => 9#8) 5 (by decide) hfits
  obtain ⟨s₂, t, hset, hput, hsame⟩ := hfill (fun _ _ => 7#8) [1#8, 2#8] (by decide)
  exact ⟨s, buffers, s₁, hs, hbuffers, hsegments, s₂, t, hset, hput, hsame _⟩

/-- The blocks for the largest length cannot be counted. -/
theorem not_getWriteBuffers : ¬ ∀ s, system.Reachable s → ∀ fresh n, 1 ≤ n → n ≤ sizeMax →
    ∃ buffers s₁, s.getWriteBuffers fresh n = .ok ((n, buffers), s₁) := by
  intro hall
  obtain ⟨s, hs, hreach⟩ := exists_new (b := 4096) (by decide) (by decide)
  have hnot : ¬ s.Fits sizeMax := by
    obtain rfl := Except.ok.inj hs
    rw [Fits, sizeMax_eq]
    decide
  obtain ⟨buffers, s₁, hok⟩ := hall s hreach (fun _ _ => 0#8) sizeMax (by rw [sizeMax_eq]; decide)
    (Nat.le_refl _)
  rw [getWriteBuffers_error (wellFormed_of_reachable hreach) hnot] at hok
  cases hok

end ByteArray

end Stream
