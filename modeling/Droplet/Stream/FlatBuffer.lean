/-
`ByteArray` as a flat buffer.

What `ByteArray` is for, without its blocks: a list of bytes and a cursor.  `Call` says
which replies a call may get and what becomes of the buffer; the bytes that
`setPosition` skips are arbitrary, and a write may be too long.

* `call_refines` — every call on a well-formed `ByteArray` is one on its flat buffer;
* `refines_of_reachable` — over any sequence of calls, for any size of the blocks.
-/
import Droplet.Stream.ByteArray

open Splice Transition Transition.System

namespace Stream

/-- A call; `fresh` holds what the blocks contain that it allocates. -/
inductive ByteCall
  | write (fresh : ℕ → ℕ → Byte) (source : List Byte)
  | read (size : ℕ)
  | readAt (size position : ℕ)
  | setPosition (position : ℕ)
  | clear
  | getReadBuffers (length : ℕ)
  | getReadBuffersAt (length position : ℕ)
  | getWriteBuffers (fresh : ℕ → ℕ → Byte) (length : ℕ)
  | setIsLittleEndian (value : Bool)

/-- What a call returns; buffers are given by their length and what they lead to. -/
inductive Reply
  | done
  | bytes (bytes : List Byte)
  | buffers (length : ℕ) (bytes : List Byte)
  | thrown (error : Error)
  deriving DecidableEq

/-- A list of bytes and a cursor. -/
structure FlatBuffer where
  bytes : List Byte
  position : ℕ

namespace FlatBuffer

/-- The replies that a call may get, and the buffer after it. -/
inductive Call (b : FlatBuffer) : ByteCall → Reply → FlatBuffer → Prop
  | write {fresh : ℕ → ℕ → Byte} {source : List Byte} :
      Call b (.write fresh source) .done
        ⟨splice b.bytes b.position source, b.position + source.length⟩
  | writeTooLong {fresh : ℕ → ℕ → Byte} {source : List Byte} :
      Call b (.write fresh source) (.thrown .lengthError) b
  | read {n : ℕ} (h : n ≤ b.bytes.length - b.position) :
      Call b (.read n) (.bytes ((b.bytes.drop b.position).take n)) ⟨b.bytes, b.position + n⟩
  | readTooLong {n : ℕ} (h : ¬ n ≤ b.bytes.length - b.position) :
      Call b (.read n) (.thrown .outOfRange) b
  | readAt {n position : ℕ} (h : n = 0 ∨ position + n ≤ b.bytes.length) :
      Call b (.readAt n position) (.bytes ((b.bytes.drop position).take n)) b
  | readAtTooLong {n position : ℕ} (h : ¬ (n = 0 ∨ position + n ≤ b.bytes.length)) :
      Call b (.readAt n position) (.thrown .outOfRange) b
  | setPosition {position : ℕ} {skipped : List Byte}
      (h : skipped.length = position - b.bytes.length) :
      Call b (.setPosition position) .done ⟨b.bytes ++ skipped, position⟩
  | setPositionTooFar {position : ℕ} (h : b.bytes.length < position) :
      Call b (.setPosition position) (.thrown .outOfRange) b
  | clear : Call b .clear .done ⟨[], 0⟩
  | getReadBuffers {length : ℕ} :
      Call b (.getReadBuffers length)
        (.buffers (min length (b.bytes.length - b.position))
          ((b.bytes.drop b.position).take (min length (b.bytes.length - b.position)))) b
  | getReadBuffersAt {length position : ℕ} :
      Call b (.getReadBuffersAt length position)
        (.buffers (min length (b.bytes.length - position))
          ((b.bytes.drop position).take (min length (b.bytes.length - position)))) b
  | getWriteBuffers {fresh : ℕ → ℕ → Byte} {length : ℕ} {old : List Byte}
      (h : old.length = length) :
      Call b (.getWriteBuffers fresh length) (.buffers length old) b
  | getWriteBuffersTooLong {fresh : ℕ → ℕ → Byte} {length : ℕ} :
      Call b (.getWriteBuffers fresh length) (.thrown .lengthError) b
  | setIsLittleEndian {value : Bool} : Call b (.setIsLittleEndian value) .done b

/-- No call gets an internal error. -/
theorem Call.no_logicError {b b' : FlatBuffer} {call : ByteCall} {reply : Reply}
    (h : Call b call reply b') : reply ≠ .thrown .logicError := by
  cases h <;> simp

end FlatBuffer

namespace ByteArray

variable {s s' : ByteArray}

/-- The flat buffer that the blocks stand for. -/
def flat (s : ByteArray) : FlatBuffer := ⟨s.bytes, s.position⟩

/-- What a call comes to; one that throws leaves the blocks as they were. -/
def answer {α : Type} (s : ByteArray) (f : α → Reply × ByteArray) : Except Error α → Reply × ByteArray
  | .ok a => f a
  | .error e => (.thrown e, s)

/-- A call. -/
def call (s : ByteArray) : ByteCall → Reply × ByteArray
  | .write fresh source => s.answer (fun s' => (.done, s')) (s.write fresh source)
  | .read size => s.answer (fun r => (.bytes r.1, r.2)) (s.read size)
  | .readAt size position => s.answer (fun bytes => (.bytes bytes, s)) (s.readAt size position)
  | .setPosition position => s.answer (fun s' => (.done, s')) (s.setPosition position)
  | .clear => (.done, s.clear)
  | .getReadBuffers length =>
    let r := s.getReadBuffers length
    (.buffers r.1 (r.2.flatMap s.contents), s)
  | .getReadBuffersAt length position =>
    let r := s.getReadBuffersAt length position
    (.buffers r.1 (r.2.flatMap s.contents), s)
  | .getWriteBuffers fresh length =>
    s.answer (fun r => (.buffers r.1.1 (r.1.2.flatMap r.2.contents), r.2))
      (s.getWriteBuffers fresh length)
  | .setIsLittleEndian value => (.done, s.setIsLittleEndian value)

/-- All sequences of calls on a `ByteArray` of any block size. -/
def system : System ByteArray ByteCall where
  init s := ∃ baseSize content, baseSize ≤ sizeMax ∧ create baseSize content = .ok s
  step s call := some (s.call call).2

/-- One with small blocks can be made. -/
theorem exists_new {b : ℕ} (hpos : 0 < b) (hsmall : b ≤ 2 ^ 16) :
    ∃ s, create b (fun _ => 0#8) = .ok s ∧ system.Reachable s := by
  have hle : b ≤ sizeMax := by
    rw [sizeMax_eq]
    omega
  have hcreate : create b (fun _ => 0#8) = .ok _ := if_neg (Nat.ne_of_gt hpos)
  exact ⟨_, hcreate, .init ⟨b, _, hle, hcreate⟩⟩

/-- A new `ByteArray`. -/
theorem wellFormed_create {baseSize : ℕ} {content : ℕ → Byte} (hle : baseSize ≤ sizeMax)
    (h : create baseSize content = .ok s) : s.WellFormed := by
  unfold create at h
  split at h
  · exact absurd h (by simp)
  · next hbase =>
    obtain rfl := Except.ok.inj h
    have hlength : (newNode baseSize content).length = baseSize := by
      rw [newNode, List.length_map, List.length_range]
    refine ⟨Nat.pos_of_ne_zero hbase, fun node hnode => ?_, ?_, rfl, Nat.le_refl _,
      Nat.zero_le _, hle⟩
    · rw [List.mem_singleton.mp hnode]
      exact hlength
    · show baseSize = ([newNode baseSize content].map List.length).sum
      rw [List.map_singleton, List.sum_singleton, hlength]

/-- **Refinement**: a call on the blocks is one on the flat buffer, and leaves the blocks
well formed. -/
theorem call_refines (h : s.WellFormed) (call : ByteCall) :
    (s.call call).2.WellFormed ∧
      FlatBuffer.Call s.flat call (s.call call).1 (s.call call).2.flat := by
  have hlength : s.flat.bytes.length = s.size := h.length_bytes
  cases call with
  | write fresh source =>
    rw [ByteArray.call]
    by_cases hfits : s.Fits source.length
    · obtain ⟨s', hwrite, hwell, -, hposition, -, -, -, hbytes⟩ := write_ok fresh h hfits
      rw [hwrite]
      refine ⟨hwell, ?_⟩
      show FlatBuffer.Call s.flat _ .done ⟨s'.bytes, s'.position⟩
      rw [hbytes, hposition]
      exact .write
    · rw [write_error h hfits]
      exact ⟨h, .writeTooLong⟩
  | read n =>
    rw [ByteArray.call, read_eq h]
    by_cases hle : n ≤ s.size - s.position
    · have hposition := h.position
      rw [if_pos hle]
      refine ⟨⟨h.base, h.nodes, h.capacity, h.tail, ?_, h.size, h.bound⟩, .read ?_⟩
      · show s.position + n ≤ s.size
        omega
      · rw [hlength]
        exact hle
    · rw [if_neg hle]
      refine ⟨h, .readTooLong ?_⟩
      rw [hlength]
      exact hle
  | readAt n position =>
    rw [ByteArray.call, readAt_eq h]
    by_cases hle : n = 0 ∨ position + n ≤ s.size
    · rw [if_pos hle]
      exact ⟨h, .readAt (by rw [hlength]; exact hle)⟩
    · rw [if_neg hle]
      exact ⟨h, .readAtTooLong (by rw [hlength]; exact hle)⟩
  | setPosition position =>
    rw [ByteArray.call]
    by_cases hle : position ≤ s.capacity
    · obtain ⟨s', hset, hwell, hposition, hsize, -, -, skipped, hskipped⟩ := setPosition_ok h hle
      rw [hset]
      refine ⟨hwell, ?_⟩
      show FlatBuffer.Call s.flat _ .done ⟨s'.bytes, s'.position⟩
      -- what is skipped over becomes part of the bytes
      rw [hposition, ← hskipped]
      refine .setPosition ?_
      have hlength' := hwell.length_bytes
      rw [← hskipped, List.length_append, h.length_bytes, hsize] at hlength'
      rw [hlength]
      omega
    · rw [setPosition_error (Nat.lt_of_not_le hle)]
      refine ⟨h, .setPositionTooFar ?_⟩
      rw [hlength]
      exact Nat.lt_of_le_of_lt h.size (Nat.lt_of_not_le hle)
  | clear =>
    obtain ⟨hwell, hposition, hbytes⟩ := clear_spec h
    refine ⟨hwell, ?_⟩
    show FlatBuffer.Call s.flat .clear .done ⟨s.clear.bytes, s.clear.position⟩
    rw [hposition, hbytes]
    exact .clear
  | getReadBuffers length =>
    obtain ⟨hcount, hcontents⟩ := getReadBuffers_eq h length
    refine ⟨h, ?_⟩
    show FlatBuffer.Call s.flat _
      (.buffers (s.getReadBuffers length).1 ((s.getReadBuffers length).2.flatMap s.contents)) s.flat
    rw [hcount, hcontents, ← h.length_bytes]
    exact .getReadBuffers
  | getReadBuffersAt length position =>
    obtain ⟨hcount, hcontents⟩ := getReadBuffersAt_eq h length position
    refine ⟨h, ?_⟩
    show FlatBuffer.Call s.flat _ (.buffers (s.getReadBuffersAt length position).1
      ((s.getReadBuffersAt length position).2.flatMap s.contents)) s.flat
    rw [hcount, hcontents, ← h.length_bytes]
    exact .getReadBuffersAt
  | getWriteBuffers fresh length =>
    rw [ByteArray.call]
    by_cases hfits : s.Fits length
    · obtain ⟨buffers, s', hget, hgrown, hcontents, hroom⟩ :=
        getWriteBuffers_ok fresh h hfits
      rw [hget]
      refine ⟨hgrown.wellFormed, ?_⟩
      show FlatBuffer.Call s.flat _ (.buffers length (buffers.flatMap s'.contents))
        ⟨s'.bytes, s'.position⟩
      rw [hgrown.bytes h, hgrown.position]
      -- the buffers show the memory behind the position, which has room for all of them
      refine .getWriteBuffers ?_
      rw [hcontents, List.length_take, List.length_drop, hgrown.wellFormed.length_flatten]
      omega
    · rw [getWriteBuffers_error h hfits]
      exact ⟨h, .getWriteBuffersTooLong⟩
  | setIsLittleEndian value =>
    exact ⟨⟨h.base, h.nodes, h.capacity, h.tail, h.position, h.size, h.bound⟩,
      .setIsLittleEndian⟩

theorem wellFormed_of_reachable (h : system.Reachable s) : s.WellFormed := by
  refine h.invariant ?_ ?_
  · rintro s ⟨baseSize, content, hle, hcreate⟩
    exact wellFormed_create hle hcreate
  · rintro s call s' hs - hstep
    obtain rfl := Option.some_inj.mp hstep
    exact (call_refines hs call).1

theorem reachable_call (h : system.Reachable s) (call : ByteCall) :
    system.Reachable (s.call call).2 := .step h trivial rfl

/-- What a write leaves. -/
structure Written (s : ByteArray) (source : List Byte) (s' : ByteArray) : Prop where
  new : ∀ i < source.length, s'.bytes[s.position + i]? = source[i]?
  old : ∀ i < s.size, i < s.position ∨ s.position + source.length ≤ i →
    s'.bytes[i]? = s.bytes[i]?
  position : s'.position = s.position + source.length
  size : s'.size = max s.size (s.position + source.length)

theorem WellFormed.written {fresh : ℕ → ℕ → Byte} {source : List Byte} (h : s.WellFormed)
    (hwrite : s.write fresh source = .ok s') : Written s source s' := by
  have hle : s.position ≤ s.bytes.length := by
    rw [h.length_bytes]
    exact h.position
  by_cases hfits : s.Fits source.length
  · obtain ⟨s₁, hwrite', -, -, hposition, hsize, -, -, hbytes⟩ := write_ok fresh h hfits
    obtain rfl := Except.ok.inj (hwrite.symm.trans hwrite')
    refine ⟨fun i hi => ?_, fun i _ hi => ?_, hposition, hsize⟩
    · rw [hbytes, getElem_splice_new hle hi]
    · rw [hbytes, getElem_splice_old hle hi]
  · rw [write_error h hfits] at hwrite
    exact absurd hwrite (by simp)

/-- **A flat buffer**, for every block size and every sequence of calls: the blocks are
in order, each call acts on the flat buffer as it should and never gets an internal
error, a write puts the source at the cursor and nothing else, and it succeeds as long
as the blocks for it can be counted. -/
theorem refines_of_reachable (h : system.Reachable s) :
    s.WellFormed ∧
    (∀ call, FlatBuffer.Call s.flat call (s.call call).1 (s.call call).2.flat ∧
      (s.call call).1 ≠ .thrown .logicError) ∧
    (∀ fresh source s', s.write fresh source = .ok s' → Written s source s') ∧
    (∀ fresh source, s.Fits source.length → (s.call (.write fresh source)).1 = .done) ∧
    ∀ position ≤ s.capacity, (s.call (.setPosition position)).1 = .done := by
  have hwell := wellFormed_of_reachable h
  refine ⟨hwell, fun call => ?_, fun fresh source s' => hwell.written,
    fun fresh source hfits => ?_, fun position hle => ?_⟩
  · have hcall := (call_refines hwell call).2
    exact ⟨hcall, hcall.no_logicError⟩
  · obtain ⟨s', hwrite, -⟩ := write_ok fresh hwell hfits
    rw [ByteArray.call, hwrite]
    rfl
  · obtain ⟨s', hset, -⟩ := setPosition_ok hwell hle
    rw [ByteArray.call, hset]
    rfl

/-- The calls of the run below. -/
def overwriteCalls : List ByteCall :=
  [.write (fun _ _ => 9#8) [1#8, 2#8, 3#8, 4#8, 5#8], .setPosition 1,
    .write (fun _ _ => 9#8) [7#8, 8#8], .setPosition 0]

/-- Blocks of three bytes: five bytes are written, the second and third are
overwritten, and all are read back. -/
theorem refines_of_reachable_run :
    ∃ s₀ s, create 3 (fun _ => 0#8) = .ok s₀ ∧ system.exec s₀ overwriteCalls = some s ∧
      s.nodes = [[1#8, 7#8, 8#8], [4#8, 5#8, 9#8]] ∧
      FlatBuffer.Call s.flat (.read 5) (.bytes [1#8, 7#8, 8#8, 4#8, 5#8])
        (s.call (.read 5)).2.flat ∧ s.WellFormed := by
  obtain ⟨s₀, hs₀, hnew⟩ := exists_new (b := 3) (by decide) (by decide)
  obtain ⟨s, hs, hnodes, hreply⟩ : ∃ s, system.exec s₀ overwriteCalls = some s ∧
      s.nodes = [[1#8, 7#8, 8#8], [4#8, 5#8, 9#8]] ∧
      (s.call (.read 5)).1 = .bytes [1#8, 7#8, 8#8, 4#8, 5#8] := by
    obtain rfl := Except.ok.inj hs₀
    exact ⟨_, rfl, by decide +kernel, by decide +kernel⟩
  have hreach := hnew.exec (meets_true _ _ _) hs
  obtain ⟨hwell, hcalls, -⟩ := refines_of_reachable hreach
  refine ⟨s₀, s, hs₀, hs, hnodes, ?_, hwell⟩
  rw [← hreply]
  exact (hcalls (.read 5)).1

end ByteArray

end Stream
