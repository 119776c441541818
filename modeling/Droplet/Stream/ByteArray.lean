/-
A byte buffer in blocks.

`ByteArray` keeps its bytes in a chain of blocks of `base_size` bytes; `nodeAt` walks the
chain to a position, and the loops of `write`, `read` and the buffer calls go on from
there.  A new block holds arbitrary bytes, which are a parameter of the calls that
allocate; allocation succeeds.  A buffer that is passed is the list of its bytes.

* `WellFormed` — what every operation keeps;
* `bytes` — the flat contents, the blocks in a row up to `size_`;
* `nodeAt_spec`, `readLoop_eq`, `writeLoop_eq`, `buffersLoop_eq` — the walks in terms of
  the flat contents;
* `write_ok`, `read_eq`, `readAt_eq`, … — one specification for each operation.
-/
import Droplet.Lib.Splice
import Droplet.Lib.Transition
import Mathlib.Algebra.BigOperators.Group.List.Basic
import Mathlib.Algebra.GroupWithZero.Nat

open Splice Transition Transition.System

namespace Stream

abbrev Byte := BitVec 8

/-- The exceptions that are thrown. -/
inductive Error
  | invalidArgument
  | lengthError
  | outOfRange
  | logicError
  deriving DecidableEq

/-- The largest `size_t`. -/
@[irreducible] def sizeMax : ℕ := 2 ^ 64 - 1

theorem sizeMax_eq : sizeMax = 2 ^ 64 - 1 := by rw [sizeMax]

/-- A `Node` is its bytes; `tail` is the place of `tail_` in the chain from `root_`. -/
structure ByteArray where
  baseSize : ℕ
  position : ℕ
  capacity : ℕ
  size : ℕ
  littleEndian : Bool
  nodes : List (List Byte)
  tail : ℕ

/-- An `iovec`: a part of a block. -/
structure Iovec where
  node : ℕ
  offset : ℕ
  length : ℕ
  deriving DecidableEq

/-- `new Node(size)`. -/
def newNode (size : ℕ) (content : ℕ → Byte) : List Byte := (List.range size).map content

/-! ### Walks along the chain -/

/-- `nodeAt`: how many blocks are before the position, and the offset in the next
one. -/
def nodeAt : List (List Byte) → ℕ → ℕ × ℕ
  | [], position => (0, position)
  | node :: rest, position =>
    if position ≥ node.length then
      let r := nodeAt rest (position - node.length)
      (r.1 + 1, r.2)
    else (0, position)

/-- The loop of `write`: the blocks after it, and what is left of the source. -/
def writeLoop : List (List Byte) → ℕ → List Byte → List (List Byte) × List Byte
  | [], _, source => ([], source)
  | node :: rest, offset, source =>
    if source = [] then (node :: rest, [])
    else
      let count := min source.length (node.length - offset)
      let r := writeLoop rest 0 (source.drop count)
      (splice node offset (source.take count) :: r.1, r.2)

/-- The loop of `read`: the bytes, and how many are missing. -/
def readLoop : List (List Byte) → ℕ → ℕ → List Byte × ℕ
  | [], _, remaining => ([], remaining)
  | node :: rest, offset, remaining =>
    if remaining = 0 then ([], 0)
    else
      let count := min remaining (node.length - offset)
      let r := readLoop rest 0 (remaining - count)
      ((node.drop offset).take count ++ r.1, r.2)

/-- The loop of `getReadBuffers` and `getWriteBuffers`, from the block of number `k`. -/
def buffersLoop : List (List Byte) → ℕ → ℕ → ℕ → List Iovec × ℕ
  | [], _, _, remaining => ([], remaining)
  | node :: rest, k, offset, remaining =>
    if remaining = 0 then ([], 0)
    else
      let count := min remaining (node.length - offset)
      let r := buffersLoop rest (k + 1) 0 (remaining - count)
      (⟨k, offset, count⟩ :: r.1, r.2)

namespace ByteArray

/-- The constructor. -/
def create (baseSize : ℕ) (content : ℕ → Byte) : Except Error ByteArray :=
  if baseSize = 0 then .error .invalidArgument
  else .ok {
    baseSize := baseSize
    position := 0
    capacity := baseSize
    size := 0
    littleEndian := false
    nodes := [newNode baseSize content]
    tail := 0 }

def getCapacity (s : ByteArray) : ℕ := s.capacity - s.position

def getReadSize (s : ByteArray) : ℕ := s.size - s.position

def setIsLittleEndian (s : ByteArray) (value : Bool) : ByteArray := { s with littleEndian := value }

/-- One round of the loop of `addCapacity`. -/
def addNode (s : ByteArray) (content : ℕ → Byte) : ByteArray :=
  { s with
    nodes := s.nodes.take (s.tail + 1) ++ [newNode s.baseSize content]
    tail := s.tail + 1
    capacity := s.capacity + s.baseSize }

/-- The loop of `addCapacity`; `fresh` holds the contents of the new blocks. -/
def grow (s : ByteArray) (fresh : ℕ → ℕ → Byte) : ℕ → ByteArray
  | 0 => s
  | count + 1 => (s.grow fresh count).addNode (fresh count)

/-- `addCapacity`. -/
def addCapacity (s : ByteArray) (fresh : ℕ → ℕ → Byte) (size : ℕ) : Except Error ByteArray :=
  if size ≤ s.getCapacity then .ok s
  else
    let missing := size - s.getCapacity
    let count := missing / s.baseSize + (if missing % s.baseSize ≠ 0 then 1 else 0)
    if count > (sizeMax - s.capacity) / s.baseSize then .error .lengthError
    else .ok (s.grow fresh count)

/-- What `write` does when there is room. -/
def writeBytes (s : ByteArray) (source : List Byte) : Except Error ByteArray :=
  let start := nodeAt s.nodes s.position
  let r := writeLoop (s.nodes.drop start.1) start.2 source
  if r.2 ≠ [] then .error .logicError
  else .ok { s with
    nodes := s.nodes.take start.1 ++ r.1
    position := s.position + source.length
    size := max s.size (s.position + source.length) }

/-- `write`. -/
def write (s : ByteArray) (fresh : ℕ → ℕ → Byte) (source : List Byte) :
    Except Error ByteArray :=
  if source = [] then .ok s
  else if source.length > sizeMax - s.position then .error .lengthError
  else
    match s.addCapacity fresh source.length with
    | .error e => .error e
    | .ok s => s.writeBytes source

/-- `read` at the current position. -/
def read (s : ByteArray) (size : ℕ) : Except Error (List Byte × ByteArray) :=
  if size = 0 then .ok ([], s)
  else if size > s.getReadSize then .error .outOfRange
  else
    let start := nodeAt s.nodes s.position
    let r := readLoop (s.nodes.drop start.1) start.2 size
    if r.2 ≠ 0 then .error .logicError
    else .ok (r.1, { s with position := s.position + size })

/-- `read` at a given position. -/
def readAt (s : ByteArray) (size position : ℕ) : Except Error (List Byte) :=
  if size = 0 then .ok []
  else if position > s.size ∨ size > s.size - position then .error .outOfRange
  else
    let start := nodeAt s.nodes position
    let r := readLoop (s.nodes.drop start.1) start.2 size
    if r.2 ≠ 0 then .error .logicError else .ok r.1

/-- `setPosition`. -/
def setPosition (s : ByteArray) (position : ℕ) : Except Error ByteArray :=
  if position > s.capacity then .error .outOfRange
  else .ok { s with position := position, size := max s.size position }

/-- `clear`. -/
def clear (s : ByteArray) : ByteArray :=
  { s with nodes := s.nodes.take 1, tail := 0, position := 0, size := 0, capacity := s.baseSize }

/-- The buffers from a position on, and their length. -/
def buffersAt (s : ByteArray) (length position : ℕ) : ℕ × List Iovec :=
  let start := nodeAt s.nodes position
  let r := buffersLoop (s.nodes.drop start.1) start.1 start.2 length
  (length - r.2, r.1)

/-- `getReadBuffers` at the current position. -/
def getReadBuffers (s : ByteArray) (length : ℕ) : ℕ × List Iovec :=
  let length := min length s.getReadSize
  if length = 0 then (0, []) else s.buffersAt length s.position

/-- `getReadBuffers` at a given position. -/
def getReadBuffersAt (s : ByteArray) (length position : ℕ) : ℕ × List Iovec :=
  if position > s.size then (0, [])
  else
    let length := min length (s.size - position)
    if length = 0 then (0, []) else s.buffersAt length position

/-- `getWriteBuffers`; every `u64` is a `size_t`. -/
def getWriteBuffers (s : ByteArray) (fresh : ℕ → ℕ → Byte) (length : ℕ) :
    Except Error ((ℕ × List Iovec) × ByteArray) :=
  if length = 0 then .ok ((0, []), s)
  else
    match s.addCapacity fresh length with
    | .error e => .error e
    | .ok s => .ok (s.buffersAt length s.position, s)

/-- The bytes that an `iovec` leads to. -/
def contents (s : ByteArray) (buffer : Iovec) : List Byte :=
  (((s.nodes[buffer.node]?).getD []).drop buffer.offset).take buffer.length

/-- The flat contents. -/
def bytes (s : ByteArray) : List Byte := s.nodes.flatten.take s.size

/-- Blocks of `base_size` bytes, as many as `capacity_` and `tail_` say, and the cursor
within the contents. -/
structure WellFormed (s : ByteArray) : Prop where
  base : 0 < s.baseSize
  nodes : ∀ node ∈ s.nodes, node.length = s.baseSize
  capacity : s.capacity = (s.nodes.map List.length).sum
  tail : s.tail + 1 = s.nodes.length
  position : s.position ≤ s.size
  size : s.size ≤ s.capacity
  bound : s.capacity ≤ sizeMax

end ByteArray

/-! ### The walks and the flat contents -/

section walks

variable {nodes : List (List Byte)} {position offset remaining k : ℕ} {source : List Byte}

/-- The offset is in the first block. -/
def InFirst (nodes : List (List Byte)) (offset : ℕ) : Prop :=
  ∀ node ∈ nodes.head?, offset ≤ node.length

theorem inFirst_zero (nodes : List (List Byte)) : InFirst nodes 0 := fun _ _ => Nat.zero_le _

/-- `nodeAt` splits the chain at the position. -/
theorem nodeAt_spec (nodes : List (List Byte)) (position : ℕ) :
    (nodes.take (nodeAt nodes position).1).flatten.length + (nodeAt nodes position).2 =
        position ∧
      InFirst (nodes.drop (nodeAt nodes position).1) (nodeAt nodes position).2 := by
  induction nodes generalizing position with
  | nil => exact ⟨by simp [nodeAt], fun node hnode => absurd hnode (by simp [nodeAt])⟩
  | cons node rest ih =>
    unfold nodeAt
    by_cases hge : position ≥ node.length
    · obtain ⟨hsum, hfirst⟩ := ih (position - node.length)
      rw [if_pos hge]
      refine ⟨?_, hfirst⟩
      show ((node :: rest).take ((nodeAt rest (position - node.length)).1 + 1)).flatten.length +
        (nodeAt rest (position - node.length)).2 = position
      rw [List.take_succ_cons, List.flatten_cons, List.length_append]
      omega
    · rw [if_neg hge]
      refine ⟨?_, fun node' hnode' => ?_⟩
      · show ([] : List Byte).length + position = position
        rw [List.length_nil, Nat.zero_add]
      · have hnode' : node' ∈ (node :: rest).head? := hnode'
        obtain rfl := Option.mem_some_iff.mp hnode'
        omega

/-- The flat contents before and after the place of a position. -/
theorem flatten_nodeAt (nodes : List (List Byte)) (position : ℕ) :
    nodes.flatten = (nodes.take (nodeAt nodes position).1).flatten ++
      (nodes.drop (nodeAt nodes position).1).flatten := by
  rw [← List.flatten_append, List.take_append_drop]

theorem drop_flatten_nodeAt (nodes : List (List Byte)) (position : ℕ) :
    nodes.flatten.drop position =
      (nodes.drop (nodeAt nodes position).1).flatten.drop (nodeAt nodes position).2 := by
  obtain ⟨hsum, -⟩ := nodeAt_spec nodes position
  calc nodes.flatten.drop position
      = ((nodes.take (nodeAt nodes position).1).flatten ++
          (nodes.drop (nodeAt nodes position).1).flatten).drop
            ((nodes.take (nodeAt nodes position).1).flatten.length +
              (nodeAt nodes position).2) := by
        rw [hsum, ← flatten_nodeAt]
    _ = (nodes.drop (nodeAt nodes position).1).flatten.drop (nodeAt nodes position).2 :=
        List.drop_length_add_append _

/-- The loop of `read` returns what the blocks hold from the offset on. -/
theorem readLoop_eq (remaining : ℕ) (hoffset : InFirst nodes offset) :
    readLoop nodes offset remaining = ((nodes.flatten.drop offset).take remaining,
      remaining - (nodes.flatten.length - offset)) := by
  induction nodes generalizing offset remaining with
  | nil => simp [readLoop]
  | cons node rest ih =>
    have hle : offset ≤ node.length := hoffset node rfl
    unfold readLoop
    by_cases hzero : remaining = 0
    · rw [if_pos hzero, hzero, List.take_zero, Nat.zero_sub]
    · have hloop := ih (remaining - min remaining (node.length - offset)) (inFirst_zero rest)
      rw [if_neg hzero]
      show ((node.drop offset).take (min remaining (node.length - offset)) ++
          (readLoop rest 0 (remaining - min remaining (node.length - offset))).1,
        (readLoop rest 0 (remaining - min remaining (node.length - offset))).2) = _
      rw [hloop]
      refine Prod.ext ?_ ?_
      · show (node.drop offset).take (min remaining (node.length - offset)) ++
          (rest.flatten.drop 0).take (remaining - min remaining (node.length - offset)) = _
        rw [List.flatten_cons, List.drop_append_of_le_length hle, List.take_append,
          List.length_drop, List.drop_zero]
        refine congrArg₂ (· ++ ·) ?_ ?_
        · by_cases hshort : remaining ≤ node.length - offset
          · rw [Nat.min_eq_left hshort]
          · rw [Nat.min_eq_right (by omega),
              List.take_of_length_le (Nat.le_of_eq List.length_drop),
              List.take_of_length_le (by rw [List.length_drop]; omega)]
        · exact congrArg (List.take · rest.flatten) (by omega)
      · show remaining - min remaining (node.length - offset) - (rest.flatten.length - 0) = _
        rw [List.flatten_cons, List.length_append]
        omega

/-- The loop of `write` overwrites what the blocks hold from the offset on, if there is
room. -/
theorem writeLoop_eq (source : List Byte) (hoffset : InFirst nodes offset)
    (hroom : offset + source.length ≤ nodes.flatten.length) :
    (writeLoop nodes offset source).2 = [] ∧
      (writeLoop nodes offset source).1.flatten = splice nodes.flatten offset source ∧
      (writeLoop nodes offset source).1.map List.length = nodes.map List.length := by
  induction nodes generalizing offset source with
  | nil =>
    have hnil : source = [] := List.eq_nil_of_length_eq_zero (by
      rw [List.flatten_nil, List.length_nil] at hroom
      omega)
    rw [hnil, splice_nil]
    exact ⟨rfl, rfl, rfl⟩
  | cons node rest ih =>
    have hle : offset ≤ node.length := hoffset node rfl
    unfold writeLoop
    by_cases hnil : source = []
    · rw [if_pos hnil, hnil, splice_nil]
      exact ⟨rfl, rfl, rfl⟩
    · rw [if_neg hnil]
      rw [List.flatten_cons, List.length_append] at hroom
      obtain ⟨count, hcount⟩ : ∃ count, min source.length (node.length - offset) = count :=
        ⟨_, rfl⟩
      have htake : (source.take count).length = count := by
        rw [List.length_take]
        omega
      have hdrop : (source.drop count).length = source.length - count := List.length_drop
      obtain ⟨hrest, hflat, hlengths⟩ := ih (source.drop count) (inFirst_zero rest)
        (by omega)
      have hnode : (splice node offset (source.take count)).length = node.length := by
        rw [length_splice hle, htake]
        omega
      rw [hcount]
      refine ⟨hrest, ?_, ?_⟩
      · show splice node offset (source.take count) ++
          (writeLoop rest 0 (source.drop count)).1.flatten = _
        have hparts : splice (node ++ rest.flatten) offset source =
            splice (splice node offset (source.take count) ++ rest.flatten) (offset + count)
              (source.drop count) := by
          conv_lhs => rw [← List.take_append_drop count source]
          rw [splice_append (by rw [List.length_append]; omega), htake,
            splice_append_left (by omega)]
        rw [hflat, List.flatten_cons, hparts]
        by_cases hall : count = source.length
        · rw [List.drop_of_length_le (Nat.le_of_eq hall.symm), splice_nil, splice_nil]
        · -- the block is full, and the rest goes to the next ones
          have hfull : offset + count = (splice node offset (source.take count)).length + 0 := by
            omega
          rw [hfull, splice_append_right]
      · show (splice node offset (source.take count)).length :: _ = _
        rw [hnode, hlengths]
        rfl

/-- The buffers lead to what the blocks hold from the offset on. -/
theorem buffersLoop_eq {s : ByteArray} (remaining : ℕ) (hnodes : nodes = s.nodes.drop k)
    (hoffset : InFirst nodes offset) :
    (buffersLoop nodes k offset remaining).1.flatMap s.contents =
        (nodes.flatten.drop offset).take remaining ∧
      (buffersLoop nodes k offset remaining).2 =
        remaining - (nodes.flatten.length - offset) := by
  induction nodes generalizing k offset remaining with
  | nil => simp [buffersLoop]
  | cons node rest ih =>
    have hle : offset ≤ node.length := hoffset node rfl
    have hget : s.nodes[k]? = some node := by
      have hhead := congrArg (·[0]?) hnodes
      simpa [List.getElem?_drop] using hhead.symm
    have hrest : rest = s.nodes.drop (k + 1) := by
      rw [← List.tail_drop, ← hnodes]
      rfl
    have hread := readLoop_eq remaining hoffset
    unfold buffersLoop
    unfold readLoop at hread
    by_cases hzero : remaining = 0
    · rw [if_pos hzero, hzero, List.take_zero, Nat.zero_sub]
      exact ⟨rfl, rfl⟩
    · rw [if_neg hzero] at hread ⊢
      obtain ⟨hcontents, hleft⟩ := ih (remaining - min remaining (node.length - offset)) hrest
        (inFirst_zero rest)
      have hloop := readLoop_eq (remaining - min remaining (node.length - offset))
        (inFirst_zero rest)
      obtain ⟨hbytes, hmissing⟩ := Prod.mk.inj hread
      constructor
      · rw [← hbytes, hloop, List.flatMap_cons, hcontents, ByteArray.contents, hget]
        rfl
      · rw [← hmissing, hloop]
        exact hleft

end walks

/-! ### Growth -/

/-- A quotient rounded up. -/
theorem div_round_up {b : ℕ} (hb : 0 < b) (x : ℕ) :
    x / b + (if x % b ≠ 0 then 1 else 0) = (x + b - 1) / b := by
  have hdiv := Nat.div_add_mod x b
  have hmod := Nat.mod_lt x hb
  by_cases hzero : x % b = 0
  · rw [if_neg (not_not.mpr hzero), Nat.add_zero]
    symm
    rw [Nat.div_eq_iff hb, Nat.mul_comm]
    omega
  · rw [if_pos hzero]
    symm
    rw [Nat.div_eq_iff hb, Nat.add_mul, Nat.mul_comm (x / b)]
    omega

namespace ByteArray

variable {s s' : ByteArray} {fresh : ℕ → ℕ → Byte} {n position length : ℕ} {source : List Byte}

/-- The blocks that hold `n` more bytes are not more than a `size_t` can count. -/
def Fits (s : ByteArray) (n : ℕ) : Prop :=
  s.baseSize * ((s.position + n + s.baseSize - 1) / s.baseSize) ≤ sizeMax

theorem Fits.mono {m : ℕ} (h : s.Fits n) (hle : m ≤ n) : s.Fits m :=
  Nat.le_trans (Nat.mul_le_mul_left _ (Nat.div_le_div_right (by omega))) h

theorem le_round_up {b : ℕ} (hb : 0 < b) (x : ℕ) : x ≤ b * ((x + b - 1) / b) := by
  have hdiv := Nat.div_add_mod (x + b - 1) b
  have hmod := Nat.mod_lt (x + b - 1) hb
  omega

namespace WellFormed

/-- The flat contents reach up to the capacity. -/
theorem length_flatten (h : s.WellFormed) : s.nodes.flatten.length = s.capacity := by
  rw [List.length_flatten, h.capacity]

theorem length_bytes (h : s.WellFormed) : s.bytes.length = s.size := by
  rw [bytes, List.length_take, h.length_flatten, Nat.min_eq_left h.size]

/-- The capacity is that of whole blocks. -/
theorem capacity_eq (h : s.WellFormed) : s.capacity = s.baseSize * s.nodes.length := by
  have hsame : s.nodes.map List.length = List.replicate s.nodes.length s.baseSize := by
    rw [List.eq_replicate_iff]
    refine ⟨List.length_map _, fun n hn => ?_⟩
    obtain ⟨node, hnode, rfl⟩ := List.mem_map.mp hn
    exact h.nodes node hnode
  rw [h.capacity, hsame, List.sum_replicate_nat, Nat.mul_comm]

/-- What fits without growth fits. -/
theorem fits_of_le (h : s.WellFormed) (hle : s.position + n ≤ s.capacity) : s.Fits n := by
  refine Nat.le_trans ?_ h.bound
  rw [h.capacity_eq]
  refine Nat.mul_le_mul_left _ ?_
  have hlt : s.position + n + s.baseSize - 1 < s.baseSize * (s.nodes.length + 1) := by
    have hcapacity := h.capacity_eq
    have hbase := h.base
    rw [Nat.mul_add, Nat.mul_one, ← hcapacity]
    omega
  exact Nat.le_of_lt_succ (Nat.div_lt_of_lt_mul hlt)

/-- What does not fit into the capacity needs as many blocks more as `addCapacity`
adds. -/
theorem fits_iff (h : s.WellFormed) (hgt : s.capacity < s.position + n) :
    s.Fits n ↔ s.capacity + s.baseSize * ((s.position + n - s.capacity + s.baseSize - 1) /
      s.baseSize) ≤ sizeMax := by
  have hbase := h.base
  have hsplit : s.position + n + s.baseSize - 1 =
      s.position + n - s.capacity + s.baseSize - 1 + s.baseSize * s.nodes.length := by
    rw [← h.capacity_eq]
    omega
  have hdiv : (s.position + n + s.baseSize - 1) / s.baseSize =
      (s.position + n - s.capacity + s.baseSize - 1) / s.baseSize + s.nodes.length := by
    rw [hsplit, Nat.add_mul_div_left _ _ hbase]
  unfold Fits
  rw [hdiv, Nat.mul_add, ← h.capacity_eq, Nat.add_comm]

/-- A block more. -/
theorem addNode (h : s.WellFormed) (content : ℕ → Byte)
    (hbound : s.capacity + s.baseSize ≤ sizeMax) :
    (s.addNode content).WellFormed ∧
      (s.addNode content).nodes = s.nodes ++ [newNode s.baseSize content] := by
  have hnew : (newNode s.baseSize content).length = s.baseSize := by
    rw [newNode, List.length_map, List.length_range]
  have hnodes : (s.addNode content).nodes = s.nodes ++ [newNode s.baseSize content] := by
    show s.nodes.take (s.tail + 1) ++ _ = _
    rw [h.tail, List.take_length]
  refine ⟨⟨h.base, fun node hnode => ?_, ?_, ?_, h.position, ?_, hbound⟩, hnodes⟩
  · rw [hnodes] at hnode
    obtain hold | hlast := List.mem_append.mp hnode
    · exact h.nodes node hold
    · rw [List.mem_singleton.mp hlast]
      exact hnew
  · rw [hnodes, List.map_append, List.sum_append, ← h.capacity, List.map_singleton,
      List.sum_singleton, hnew]
    rfl
  · rw [hnodes, List.length_append, ← h.tail]
    rfl
  · exact Nat.le_trans h.size (Nat.le_add_right _ _)

end WellFormed

/-- Blocks have been added. -/
structure Grown (s s' : ByteArray) : Prop where
  wellFormed : s'.WellFormed
  baseSize : s'.baseSize = s.baseSize
  position : s'.position = s.position
  size : s'.size = s.size
  littleEndian : s'.littleEndian = s.littleEndian
  nodes : ∃ more, s'.nodes = s.nodes ++ more

theorem Grown.refl (h : s.WellFormed) : Grown s s := ⟨h, rfl, rfl, rfl, rfl, [], by simp⟩

/-- Growth leaves the contents alone. -/
theorem Grown.bytes (h : Grown s s') (hs : s.WellFormed) : s'.bytes = s.bytes := by
  obtain ⟨more, hmore⟩ := h.nodes
  rw [ByteArray.bytes, ByteArray.bytes, hmore, h.size, List.flatten_append,
    List.take_append_of_le_length (by rw [hs.length_flatten]; exact hs.size)]

/-- The loop of `addCapacity`. -/
theorem grow_spec (fresh : ℕ → ℕ → Byte) (h : s.WellFormed) (count : ℕ)
    (hbound : s.capacity + s.baseSize * count ≤ sizeMax) :
    Grown s (s.grow fresh count) ∧
      (s.grow fresh count).capacity = s.capacity + s.baseSize * count := by
  induction count with
  | zero => exact ⟨Grown.refl h, rfl⟩
  | succ count ih =>
    rw [Nat.mul_add, Nat.mul_one] at hbound
    obtain ⟨hgrown, hcapacity⟩ := ih (by omega)
    obtain ⟨hwell, hnodes⟩ := hgrown.wellFormed.addNode (fresh count)
      (by rw [hcapacity, hgrown.baseSize]; omega)
    obtain ⟨more, hmore⟩ := hgrown.nodes
    refine ⟨⟨hwell, hgrown.baseSize, hgrown.position, hgrown.size, hgrown.littleEndian,
      more ++ [newNode (s.grow fresh count).baseSize (fresh count)], ?_⟩, ?_⟩
    · show ((s.grow fresh count).addNode (fresh count)).nodes = _
      rw [hnodes, hmore, List.append_assoc]
    · show (s.grow fresh count).capacity + (s.grow fresh count).baseSize = _
      rw [hcapacity, hgrown.baseSize, Nat.mul_add, Nat.mul_one, Nat.add_assoc]

/-- **`addCapacity`** makes room for what fits. -/
theorem addCapacity_ok (fresh : ℕ → ℕ → Byte) (h : s.WellFormed) (hfits : s.Fits n) :
    ∃ s', s.addCapacity fresh n = .ok s' ∧ Grown s s' ∧ s.position + n ≤ s'.capacity := by
  have hposition : s.position ≤ s.capacity := Nat.le_trans h.position h.size
  unfold addCapacity
  by_cases hle : n ≤ s.getCapacity
  · rw [if_pos hle]
    refine ⟨s, rfl, Grown.refl h, ?_⟩
    unfold getCapacity at hle
    omega
  · rw [if_neg hle]
    unfold getCapacity at hle ⊢
    have hmissing : n - (s.capacity - s.position) = s.position + n - s.capacity := by omega
    have hroom := (h.fits_iff (by omega)).mp hfits
    rw [hmissing]
    show ∃ s', (if _ / s.baseSize + _ > _ then _ else _) = Except.ok s' ∧ _
    rw [div_round_up h.base, if_neg]
    · obtain ⟨hgrown, hcapacity⟩ := grow_spec fresh h _ hroom
      refine ⟨_, rfl, hgrown, ?_⟩
      have hup := le_round_up h.base (s.position + n - s.capacity)
      rw [hcapacity]
      omega
    · rw [gt_iff_lt, Nat.not_lt, Nat.le_div_iff_mul_le h.base, Nat.mul_comm]
      omega

/-- It throws for what does not fit. -/
theorem addCapacity_error (h : s.WellFormed) (hfits : ¬ s.Fits n) :
    s.addCapacity fresh n = .error .lengthError := by
  have hposition : s.position ≤ s.capacity := Nat.le_trans h.position h.size
  have hgt : s.capacity < s.position + n := by
    by_contra hle
    exact hfits (h.fits_of_le (by omega))
  have hroom := mt (h.fits_iff hgt).mpr hfits
  have hbound := h.bound
  unfold addCapacity
  have hmore : ¬ n ≤ s.getCapacity := by
    unfold getCapacity
    omega
  rw [if_neg hmore]
  unfold getCapacity
  have hmissing : n - (s.capacity - s.position) = s.position + n - s.capacity := by omega
  rw [hmissing]
  show (if _ / s.baseSize + _ > _ then _ else _) = _
  rw [div_round_up h.base, if_pos]
  rw [gt_iff_lt, Nat.div_lt_iff_lt_mul h.base, Nat.mul_comm]
  omega

/-! ### The operations -/

/-- Where there is room `writeBytes` overwrites the contents. -/
theorem writeBytes_ok (source : List Byte) (h : s.WellFormed)
    (hroom : s.position + source.length ≤ s.capacity) :
    ∃ s', s.writeBytes source = .ok s' ∧ s'.WellFormed ∧ s'.baseSize = s.baseSize ∧
      s'.position = s.position + source.length ∧
      s'.size = max s.size (s.position + source.length) ∧
      s'.littleEndian = s.littleEndian ∧ s'.capacity = s.capacity ∧
      s'.bytes = splice s.bytes s.position source := by
  obtain ⟨hsum, hfirst⟩ := nodeAt_spec s.nodes s.position
  have hlength := h.length_flatten
  rw [flatten_nodeAt s.nodes s.position, List.length_append] at hlength
  obtain ⟨hnone, hflat, hlengths⟩ := writeLoop_eq source hfirst (by omega)
  have hsplice : (s.nodes.take (nodeAt s.nodes s.position).1 ++
      (writeLoop (s.nodes.drop (nodeAt s.nodes s.position).1) (nodeAt s.nodes s.position).2
        source).1).flatten = splice s.nodes.flatten s.position source := by
    conv_rhs => rw [flatten_nodeAt s.nodes s.position, ← hsum]
    rw [List.flatten_append, hflat, ← splice_append_right, hsum]
  have hmap : (s.nodes.take (nodeAt s.nodes s.position).1 ++
      (writeLoop (s.nodes.drop (nodeAt s.nodes s.position).1) (nodeAt s.nodes s.position).2
        source).1).map List.length = s.nodes.map List.length := by
    rw [List.map_append, hlengths, ← List.map_append, List.take_append_drop]
  refine ⟨_, if_neg (not_not.mpr hnone), ⟨h.base, fun node hnode => ?_, ?_, ?_, ?_, ?_, h.bound⟩,
    rfl, rfl, rfl, rfl, rfl, ?_⟩
  · have hmem : node.length ∈ s.nodes.map List.length := hmap ▸ List.mem_map_of_mem hnode
    obtain ⟨old, hold, heq⟩ := List.mem_map.mp hmem
    rw [← heq]
    exact h.nodes old hold
  · show s.capacity = ((s.nodes.take _ ++ _).map List.length).sum
    rw [hmap]
    exact h.capacity
  · show s.tail + 1 = (s.nodes.take _ ++ _).length
    rw [h.tail, ← List.length_map (f := List.length), ← hmap, List.length_map]
  · exact Nat.le_max_right _ _
  · exact Nat.max_le.mpr ⟨h.size, hroom⟩
  · show (s.nodes.take _ ++ _).flatten.take (max s.size (s.position + source.length)) = _
    rw [hsplice]
    have hposition : s.position ≤ s.nodes.flatten.length := by
      rw [h.length_flatten]
      omega
    have hsize : s.bytes.length = s.size := h.length_bytes
    by_cases hwithin : s.position + source.length ≤ s.size
    · rw [Nat.max_eq_left hwithin, take_splice_of_le hposition hwithin]
      rfl
    · -- the write goes beyond the old size: nothing is left behind it
      rw [Nat.max_eq_right (by omega), take_splice_of_le hposition (Nat.le_refl _), splice, splice,
        List.take_take, Nat.min_eq_left (by omega), bytes, List.take_take,
        Nat.min_eq_left h.position, List.drop_eq_nil_of_le (by rw [List.length_take]; omega),
        List.drop_eq_nil_of_le (by rw [List.length_take]; omega)]

/-- **`write`** overwrites the contents from the cursor on, and extends them. -/
theorem write_ok (fresh : ℕ → ℕ → Byte) (h : s.WellFormed) (hfits : s.Fits source.length) :
    ∃ s', s.write fresh source = .ok s' ∧ s'.WellFormed ∧ s'.baseSize = s.baseSize ∧
      s'.position = s.position + source.length ∧
      s'.size = max s.size (s.position + source.length) ∧
      s'.littleEndian = s.littleEndian ∧ s.capacity ≤ s'.capacity ∧
      s'.bytes = splice s.bytes s.position source := by
  unfold write
  by_cases hnil : source = []
  · rw [if_pos hnil, hnil, splice_nil]
    exact ⟨s, rfl, h, rfl, rfl, (Nat.max_eq_left h.position).symm, rfl, Nat.le_refl _, rfl⟩
  · have hneeded : s.position + source.length ≤ sizeMax :=
      Nat.le_trans (le_round_up h.base _) hfits
    obtain ⟨s₁, hadd, hgrown, hroom⟩ := addCapacity_ok fresh h hfits
    obtain ⟨s', hwrite, hwell, hbase, hposition, hsize, hlittle, hcapacity, hbytes⟩ :=
      writeBytes_ok source hgrown.wellFormed (by rw [hgrown.position]; exact hroom)
    rw [if_neg hnil, if_neg (by omega), hadd]
    refine ⟨s', hwrite, hwell, hbase.trans hgrown.baseSize, ?_, ?_, ?_, ?_, ?_⟩
    · rw [hposition, hgrown.position]
    · rw [hsize, hgrown.size, hgrown.position]
    · exact hlittle.trans hgrown.littleEndian
    · rw [hcapacity]
      obtain ⟨more, hmore⟩ := hgrown.nodes
      rw [← h.length_flatten, ← hgrown.wellFormed.length_flatten, hmore, List.flatten_append,
        List.length_append]
      exact Nat.le_add_right _ _
    · rw [hbytes, hgrown.bytes h, hgrown.position]

/-- It throws for what does not fit. -/
theorem write_error (h : s.WellFormed) (hfits : ¬ s.Fits source.length) :
    s.write fresh source = .error .lengthError := by
  have hposition : s.position ≤ s.capacity := Nat.le_trans h.position h.size
  have hnil : source ≠ [] := by
    rintro rfl
    exact hfits (h.fits_of_le (by simpa using hposition))
  unfold write
  rw [if_neg hnil]
  by_cases hover : source.length > sizeMax - s.position
  · rw [if_pos hover]
  · rw [if_neg hover, addCapacity_error h hfits]

/-- The flat contents from a position within them on. -/
theorem take_drop_bytes (hle : position + n ≤ s.size) :
    (s.nodes.flatten.drop position).take n = (s.bytes.drop position).take n := by
  rw [bytes, List.drop_take, List.take_take, Nat.min_eq_left (by omega)]

/-- The loop of `read`, from the place of a position within the contents on. -/
theorem readLoop_at (h : s.WellFormed) (hle : position + n ≤ s.size) :
    readLoop (s.nodes.drop (nodeAt s.nodes position).1) (nodeAt s.nodes position).2 n =
      ((s.bytes.drop position).take n, 0) := by
  obtain ⟨hsum, hfirst⟩ := nodeAt_spec s.nodes position
  have hlength := h.length_flatten
  rw [flatten_nodeAt s.nodes position, List.length_append] at hlength
  have hsize := h.size
  rw [readLoop_eq n hfirst, ← drop_flatten_nodeAt, take_drop_bytes hle]
  exact congrArg (Prod.mk _) (by omega)

/-- **`read`** returns the contents behind the cursor and moves it, if there are
enough. -/
theorem read_eq (h : s.WellFormed) (n : ℕ) :
    s.read n = if n ≤ s.size - s.position then
        .ok ((s.bytes.drop s.position).take n, { s with position := s.position + n })
      else .error .outOfRange := by
  unfold read getReadSize
  by_cases hzero : n = 0
  · rw [if_pos hzero, hzero, if_pos (Nat.zero_le _), List.take_zero]
    rfl
  · rw [if_neg hzero]
    by_cases hle : n ≤ s.size - s.position
    · have hposition := h.position
      rw [if_neg (Nat.not_lt.mpr hle), if_pos hle]
      show (if (readLoop _ _ n).2 ≠ 0 then _ else _) = _
      rw [readLoop_at h (by omega), if_neg (not_not.mpr rfl)]
    · rw [if_pos (Nat.not_le.mp hle), if_neg hle]

/-- **`read` at a position** returns the contents there, if there are enough. -/
theorem readAt_eq (h : s.WellFormed) (n position : ℕ) :
    s.readAt n position = if n = 0 ∨ position + n ≤ s.size then
        .ok ((s.bytes.drop position).take n)
      else .error .outOfRange := by
  unfold readAt
  by_cases hzero : n = 0
  · rw [if_pos hzero, if_pos (.inl hzero), hzero, List.take_zero]
  · rw [if_neg hzero]
    by_cases hle : position + n ≤ s.size
    · have hwithin : ¬ (position > s.size ∨ n > s.size - position) := by omega
      have henough : n = 0 ∨ position + n ≤ s.size := .inr hle
      rw [if_neg hwithin, if_pos henough]
      show (if (readLoop _ _ n).2 ≠ 0 then _ else _) = _
      rw [readLoop_at h hle, if_neg (not_not.mpr rfl)]
    · have hbeyond : position > s.size ∨ n > s.size - position := by omega
      have hmissing : ¬ (n = 0 ∨ position + n ≤ s.size) := by omega
      rw [if_pos hbeyond, if_neg hmissing]

/-- **`setPosition`** moves the cursor within the capacity; what it skips joins the
contents. -/
theorem setPosition_ok (h : s.WellFormed) (hle : position ≤ s.capacity) :
    ∃ s', s.setPosition position = .ok s' ∧ s'.WellFormed ∧ s'.position = position ∧
      s'.size = max s.size position ∧ s'.baseSize = s.baseSize ∧
      s'.littleEndian = s.littleEndian ∧ s.bytes <+: s'.bytes := by
  refine ⟨_, if_neg (Nat.not_lt.mpr hle), ⟨h.base, h.nodes, h.capacity, h.tail,
    Nat.le_max_right _ _, Nat.max_le.mpr ⟨h.size, hle⟩, h.bound⟩, rfl, rfl, rfl, rfl, ?_⟩
  exact List.take_prefix_take_left (Nat.le_max_left _ _)

theorem setPosition_error (hgt : s.capacity < position) :
    s.setPosition position = .error .outOfRange := if_pos hgt

/-- **`clear`** leaves the first block and no contents. -/
theorem clear_spec (h : s.WellFormed) :
    s.clear.WellFormed ∧ s.clear.position = 0 ∧ s.clear.bytes = [] := by
  have htail := h.tail
  have hlength : (s.nodes.take 1).length = 1 := by
    rw [List.length_take]
    omega
  obtain ⟨node, hnode⟩ := List.length_eq_one_iff.mp hlength
  have hmem : node ∈ s.nodes := List.mem_of_mem_take (hnode ▸ List.mem_singleton_self node)
  refine ⟨⟨h.base, fun other hother => h.nodes other (List.mem_of_mem_take hother), ?_,
    hlength.symm, Nat.le_refl _, Nat.zero_le _, ?_⟩, rfl, List.take_zero⟩
  · show s.baseSize = ((s.nodes.take 1).map List.length).sum
    rw [hnode, List.map_singleton, List.sum_singleton, h.nodes node hmem]
  · show s.baseSize ≤ sizeMax
    refine Nat.le_trans ?_ h.bound
    rw [h.capacity_eq]
    exact Nat.le_mul_of_pos_right _ (by omega)

/-- The buffers from a position on lead to what is there. -/
theorem buffersAt_eq (n position : ℕ) (h : s.WellFormed) (hle : position + n ≤ s.capacity) :
    (s.buffersAt n position).1 = n ∧
      (s.buffersAt n position).2.flatMap s.contents =
        (s.nodes.flatten.drop position).take n := by
  obtain ⟨hsum, hfirst⟩ := nodeAt_spec s.nodes position
  have hlength := h.length_flatten
  rw [flatten_nodeAt s.nodes position, List.length_append] at hlength
  obtain ⟨hcontents, hleft⟩ := buffersLoop_eq (s := s) n rfl hfirst
  constructor
  · show n - (buffersLoop _ _ _ n).2 = n
    rw [hleft]
    omega
  · show (buffersLoop _ _ _ n).1.flatMap s.contents = _
    rw [hcontents, ← drop_flatten_nodeAt]

/-- **`getReadBuffers`** leads to the contents behind the cursor. -/
theorem getReadBuffers_eq (h : s.WellFormed) (length : ℕ) :
    (s.getReadBuffers length).1 = min length (s.size - s.position) ∧
      (s.getReadBuffers length).2.flatMap s.contents =
        (s.bytes.drop s.position).take (min length (s.size - s.position)) := by
  have hposition := h.position
  have hsize := h.size
  unfold getReadBuffers getReadSize
  by_cases hzero : min length (s.size - s.position) = 0
  · rw [if_pos hzero, hzero, List.take_zero]
    exact ⟨rfl, rfl⟩
  · rw [if_neg hzero]
    obtain ⟨hcount, hcontents⟩ := buffersAt_eq (min length (s.size - s.position)) s.position h
      (by omega)
    exact ⟨hcount, hcontents.trans (take_drop_bytes (by omega))⟩

/-- **`getReadBuffers` at a position** leads to the contents there. -/
theorem getReadBuffersAt_eq (h : s.WellFormed) (length position : ℕ) :
    (s.getReadBuffersAt length position).1 = min length (s.size - position) ∧
      (s.getReadBuffersAt length position).2.flatMap s.contents =
        (s.bytes.drop position).take (min length (s.size - position)) := by
  have hsize := h.size
  unfold getReadBuffersAt
  by_cases hgt : position > s.size
  · have hnone : min length (s.size - position) = 0 := by omega
    rw [if_pos hgt, hnone, List.take_zero]
    exact ⟨rfl, rfl⟩
  · rw [if_neg hgt]
    by_cases hzero : min length (s.size - position) = 0
    · show (if min length (s.size - position) = 0 then _ else _ : ℕ × List Iovec).1 = _ ∧
        (if min length (s.size - position) = 0 then _ else _ : ℕ × List Iovec).2.flatMap _ = _
      rw [if_pos hzero, hzero, List.take_zero]
      exact ⟨rfl, rfl⟩
    · show (if min length (s.size - position) = 0 then _ else _ : ℕ × List Iovec).1 = _ ∧
        (if min length (s.size - position) = 0 then _ else _ : ℕ × List Iovec).2.flatMap _ = _
      rw [if_neg hzero]
      obtain ⟨hcount, hcontents⟩ := buffersAt_eq (min length (s.size - position)) position h
        (by omega)
      exact ⟨hcount, hcontents.trans (take_drop_bytes (by omega))⟩

/-- **`getWriteBuffers`** makes room and leads to it; the contents stay. -/
theorem getWriteBuffers_ok (fresh : ℕ → ℕ → Byte) (h : s.WellFormed) (hfits : s.Fits length) :
    ∃ buffers s', s.getWriteBuffers fresh length = .ok ((length, buffers), s') ∧ Grown s s' ∧
      buffers.flatMap s'.contents = (s'.nodes.flatten.drop s.position).take length ∧
      s.position + length ≤ s'.capacity := by
  unfold getWriteBuffers
  by_cases hzero : length = 0
  · have hposition : s.position ≤ s.capacity := Nat.le_trans h.position h.size
    rw [if_pos hzero, hzero]
    exact ⟨[], s, rfl, Grown.refl h, List.take_zero.symm, hposition⟩
  · obtain ⟨s', hadd, hgrown, hroom⟩ := addCapacity_ok fresh h hfits
    obtain ⟨hcount, hcontents⟩ := buffersAt_eq length s'.position hgrown.wellFormed (by rw [hgrown.position]; exact hroom)
    rw [if_neg hzero, hadd]
    refine ⟨(s'.buffersAt length s'.position).2, s', ?_, hgrown, ?_, hroom⟩
    · exact congrArg (fun count => Except.ok ((count, _), s')) hcount
    · rw [hcontents, hgrown.position]

theorem getWriteBuffers_error (h : s.WellFormed) (hfits : ¬ s.Fits length) :
    s.getWriteBuffers fresh length = .error .lengthError := by
  have hposition : s.position ≤ s.capacity := Nat.le_trans h.position h.size
  have hzero : length ≠ 0 := by
    rintro rfl
    exact hfits (h.fits_of_le (by simpa using hposition))
  unfold getWriteBuffers
  rw [if_neg hzero, addCapacity_error h hfits]

end ByteArray

end Stream
