/-
What is left after `clear`.

`clear` keeps the first block with what it holds, and `setPosition` moves the readable
end over bytes that nobody has written since.  As long as it does not, what was written
before cannot be seen: two runs from cleared states find the same.

* `Later` — the calls after `clear`;
* `Twin` — states that no such call tells apart; `couples_write` — writes keep it;
* `Covered`, `AllCovered` — `setPosition` stays within what has been written;
* `forgets_of_covered` — then the two runs return and throw the same.
-/
import Droplet.Stream.Reading

open Splice TwoRuns Transition Transition.System

namespace Stream

variable {s t s' : ByteArray} {w n : ℕ}

/-! ### Calls -/

/-- The calls after `clear`. -/
inductive Later
  | reading (call : Reading)
  | write (source : List Byte)
  | writeValue (value : Value)
  | setPosition (position : ℕ)

def setPosition (position : ℕ) : Op Unit := fun s =>
  match s.setPosition position with
  | .ok s => .ok () s
  | .error e => .error e s

namespace Later

/-- A call; `fresh` holds what the blocks contain that it allocates. -/
def run (fresh : Fresh) : Later → Op Seen
  | .reading call => call.run
  | .write source => (fun _ => .nothing) <$> writeRaw (fresh 0) source
  | .writeValue value => (fun _ => .nothing) <$> value.1.write fresh value.2
  | .setPosition position => (fun _ => .nothing) <$> Stream.setPosition position

/-- `setPosition` goes to where something has been written, or too far. -/
def Covered (s : ByteArray) : Later → Prop
  | .setPosition position => position ≤ s.size ∨ s.capacity < position
  | _ => True

end Later

/-- A list of calls, and what each of them returns or throws. -/
def laters (fresh : ℕ → Fresh) : List Later → Op (List (Except Error Seen))
  | [] => return []
  | call :: rest => do
    let seen ← attempt (call.run (fresh 0))
    let others ← laters (fun i => fresh (i + 1)) rest
    return seen :: others

/-- Each `setPosition` of a run is covered in the state that it finds. -/
def AllCovered (fresh : ℕ → Fresh) : List Later → ByteArray → Prop
  | [], _ => True
  | call :: rest, s => call.Covered s ∧
    AllCovered (fun i => fresh (i + 1)) rest (after (call.run (fresh 0) s))

/-! ### Twins -/

/-- The same but for what is behind the readable end. -/
structure Twin (s t : ByteArray) : Prop where
  alike : Alike s t
  baseSize : s.baseSize = t.baseSize
  capacity : s.capacity = t.capacity

theorem cursor_twin : Cursor Twin := by
  refine ⟨fun h => h.alike, fun n h hle => ?_⟩
  exact ⟨cursor_alike.advance n h.alike hle, h.baseSize, h.capacity⟩

/-- The blocks that `addCapacity` adds for so many bytes more. -/
def missingBlocks (s : ByteArray) (n : ℕ) : ℕ :=
  (n - s.getCapacity) / s.baseSize + (if (n - s.getCapacity) % s.baseSize ≠ 0 then 1 else 0)

/-- The capacity with room for them. -/
def grownCapacity (s : ByteArray) (n : ℕ) : ℕ :=
  if n ≤ s.getCapacity then s.capacity else s.capacity + s.baseSize * missingBlocks s n

theorem grow_capacity (fresh : ℕ → ℕ → Byte) (s : ByteArray) (count : ℕ) :
    (s.grow fresh count).capacity = s.capacity + s.baseSize * count ∧
      (s.grow fresh count).baseSize = s.baseSize := by
  induction count with
  | zero => exact ⟨rfl, rfl⟩
  | succ count ih =>
    refine ⟨?_, ih.2⟩
    show (s.grow fresh count).capacity + (s.grow fresh count).baseSize = _
    rw [ih.1, ih.2, Nat.mul_add, Nat.mul_one, Nat.add_assoc]

theorem capacity_of_addCapacity {fresh : ℕ → ℕ → Byte} (hadd : s.addCapacity fresh n = .ok s') :
    s'.capacity = grownCapacity s n := by
  unfold ByteArray.addCapacity at hadd
  by_cases hle : n ≤ s.getCapacity
  · rw [if_pos hle] at hadd
    rw [grownCapacity, if_pos hle, Except.ok.inj hadd]
  · rw [if_neg hle] at hadd
    have hadd : (if missingBlocks s n > (sizeMax - s.capacity) / s.baseSize then
        Except.error Error.lengthError
      else Except.ok (s.grow fresh (missingBlocks s n))) = Except.ok s' := hadd
    rw [grownCapacity, if_neg hle]
    by_cases hover : missingBlocks s n > (sizeMax - s.capacity) / s.baseSize
    · rw [if_pos hover] at hadd
      cases hadd
    · rw [if_neg hover] at hadd
      rw [← Except.ok.inj hadd, (grow_capacity fresh s _).1]

/-- How far a `write` grows the capacity does not depend on what there is. -/
theorem capacity_of_write {fresh : ℕ → ℕ → Byte} {source : List Byte}
    (hwrite : s.write fresh source = .ok s') : s'.capacity = grownCapacity s source.length := by
  unfold ByteArray.write at hwrite
  by_cases hnil : source = []
  · rw [if_pos hnil] at hwrite
    rw [hnil, grownCapacity, List.length_nil, if_pos (Nat.zero_le _), Except.ok.inj hwrite]
  · rw [if_neg hnil] at hwrite
    by_cases hover : source.length > sizeMax - s.position
    · rw [if_pos hover] at hwrite
      cases hwrite
    · rw [if_neg hover] at hwrite
      cases hadd : s.addCapacity fresh source.length with
      | error e =>
        rw [hadd] at hwrite
        cases hwrite
      | ok s₁ =>
        rw [hadd] at hwrite
        have hwrite : s₁.writeBytes source = .ok s' := hwrite
        rw [← capacity_of_addCapacity hadd]
        unfold ByteArray.writeBytes at hwrite
        have hwrite : (if _ ≠ [] then _ else _) = Except.ok s' := hwrite
        split at hwrite
        · cases hwrite
        · rw [← Except.ok.inj hwrite]

theorem Twin.fits_iff (h : Twin s t) (n : ℕ) : s.Fits n ↔ t.Fits n := by
  rw [ByteArray.Fits, ByteArray.Fits, h.baseSize, h.alike.position]

/-- **Raw writes** keep twins, whatever new blocks hold. -/
theorem couples_writeRaw (fresh fresh' : ℕ → ℕ → Byte) (source : List Byte) :
    Couples Twin (writeRaw fresh source) (writeRaw fresh' source) := by
  intro s t h
  have halike := h.alike
  rw [writeRaw, writeRaw]
  by_cases hfits : s.Fits source.length
  · obtain ⟨s₁, hs₁, hwell, hbase, hposition, -, hlittle, -, hbytes⟩ :=
      ByteArray.write_ok fresh halike.left hfits
    obtain ⟨t₁, ht₁, hwell', hbase', hposition', -, hlittle', -, hbytes'⟩ :=
      ByteArray.write_ok fresh' halike.right ((h.fits_iff _).mp hfits)
    have hcapacity : s₁.capacity = t₁.capacity := by
      rw [capacity_of_write hs₁, capacity_of_write ht₁, grownCapacity, grownCapacity, missingBlocks,
        missingBlocks, ByteArray.getCapacity, ByteArray.getCapacity, h.capacity, h.baseSize, halike.position]
    rw [hs₁, ht₁]
    refine .ok ⟨⟨hwell, hwell', ?_, ?_, ?_⟩, ?_, hcapacity⟩
    · rw [hbytes, hbytes', halike.bytes, halike.position]
    · rw [hposition, hposition', halike.position]
    · rw [hlittle, hlittle', halike.littleEndian]
    · rw [hbase, hbase', h.baseSize]
  · rw [ByteArray.write_error halike.left hfits,
      ByteArray.write_error halike.right (mt (h.fits_iff _).mpr hfits)]
    exact .error h

theorem couples_writeFixed (fresh fresh' : Fresh) (bits : BitVec w) :
    Couples Twin (writeFixed fresh bits) (writeFixed fresh' bits) := by
  refine Couples.get_bind fun s t h => ?_
  rw [h.alike.littleEndian]
  exact couples_writeRaw (fresh 0) (fresh' 0) _ s t h

/-- **Each `write` call** keeps twins. -/
theorem couples_write (fresh fresh' : Fresh) (kind : Kind) (value : kind.Carrier) :
    Couples Twin (kind.write fresh value) (kind.write fresh' value) := by
  cases kind with
  | fint8 => exact couples_writeFixed fresh fresh' _
  | fuint8 => exact couples_writeFixed fresh fresh' _
  | fint16 => exact couples_writeFixed fresh fresh' _
  | fuint16 => exact couples_writeFixed fresh fresh' _
  | fint32 => exact couples_writeFixed fresh fresh' _
  | fuint32 => exact couples_writeFixed fresh fresh' _
  | fint64 => exact couples_writeFixed fresh fresh' _
  | fuint64 => exact couples_writeFixed fresh fresh' _
  | int32 => exact couples_writeRaw (fresh 0) (fresh' 0) _
  | uint32 => exact couples_writeRaw (fresh 0) (fresh' 0) _
  | int64 => exact couples_writeRaw (fresh 0) (fresh' 0) _
  | uint64 => exact couples_writeRaw (fresh 0) (fresh' 0) _
  | float => exact couples_writeFixed fresh fresh' _
  | double => exact couples_writeFixed fresh fresh' _
  | stringF16 =>
    show Couples Twin (writeStringF16 fresh value) (writeStringF16 fresh' value)
    rw [writeStringF16, writeStringF16]
    by_cases hlimit : List.length value > 2 ^ 16 - 1
    · rw [if_pos hlimit, if_pos hlimit]
      exact Couples.throw Error.lengthError
    · rw [if_neg hlimit, if_neg hlimit]
      exact (couples_writeFixed fresh fresh' _).bind fun _ => couples_writeRaw (fresh 1) (fresh' 1) _
  | stringF32 =>
    show Couples Twin (writeStringF32 fresh value) (writeStringF32 fresh' value)
    rw [writeStringF32, writeStringF32]
    by_cases hlimit : List.length value > 2 ^ 32 - 1
    · rw [if_pos hlimit, if_pos hlimit]
      exact Couples.throw Error.lengthError
    · rw [if_neg hlimit, if_neg hlimit]
      exact (couples_writeFixed fresh fresh' _).bind fun _ => couples_writeRaw (fresh 1) (fresh' 1) _
  | stringF64 =>
    exact (couples_writeFixed fresh fresh' _).bind fun _ => couples_writeRaw (fresh 1) (fresh' 1) _
  | stringVint =>
    exact (couples_writeRaw (fresh 0) (fresh' 0) _).bind fun _ =>
      couples_writeRaw (fresh 1) (fresh' 1) _

/-! ### Two runs -/

/-- A `setPosition` within what has been written moves the cursor only. -/
theorem setPosition_within (h : s.WellFormed) {position : ℕ} (hle : position ≤ s.size) :
    s.setPosition position = .ok { s with position := position } := by
  have hcapacity : ¬ position > s.capacity := Nat.not_lt.mpr (Nat.le_trans hle h.size)
  rw [ByteArray.setPosition, if_neg hcapacity, Nat.max_eq_left hle]

/-- The cursor is moved in both. -/
theorem Twin.moved (h : Twin s t) {position : ℕ} (hle : position ≤ s.size) :
    Twin { s with position := position } { t with position := position } := by
  obtain ⟨halike, hbase, hcapacity⟩ := h
  have hle' : position ≤ t.size := by rwa [← halike.size]
  obtain ⟨left, right, hbytes, -, hlittle⟩ := halike
  refine ⟨⟨?_, ?_, hbytes, rfl, hlittle⟩, hbase, hcapacity⟩
  · exact ⟨left.base, left.nodes, left.capacity, left.tail, hle, left.size, left.bound⟩
  · exact ⟨right.base, right.nodes, right.capacity, right.tail, hle', right.size, right.bound⟩

/-- A covered `setPosition` skips nothing. -/
theorem coupled_setPosition {position : ℕ} (h : Twin s t)
    (hcovered : position ≤ s.size ∨ s.capacity < position) :
    Coupled Twin (setPosition position s) (setPosition position t) := by
  rw [setPosition, setPosition]
  obtain hle | hgt := hcovered
  · have hle' : position ≤ t.size := by rwa [← h.alike.size]
    rw [setPosition_within h.alike.left hle, setPosition_within h.alike.right hle']
    exact .ok (h.moved hle)
  · have hgt' : t.capacity < position := by rwa [← h.capacity]
    rw [ByteArray.setPosition_error hgt, ByteArray.setPosition_error hgt']
    exact .error h

/-- **One call** keeps twins. -/
theorem coupled_run (fresh fresh' : Fresh) (call : Later) (h : Twin s t) (hcovered : call.Covered s) :
    Coupled Twin (call.run fresh s) (call.run fresh' t) := by
  cases call with
  | reading call => exact couples_reading cursor_twin call s t h
  | write source => exact (couples_writeRaw (fresh 0) (fresh' 0) source).map _ s t h
  | writeValue value => exact (couples_write fresh fresh' value.1 value.2).map _ s t h
  | setPosition position => exact (coupled_setPosition h hcovered).map _

/-- **A list of calls**: as long as they are covered, twins answer the same. -/
theorem coupled_laters (fresh fresh' : ℕ → Fresh) (calls : List Later) (h : Twin s t)
    (hcovered : AllCovered fresh calls s) :
    Coupled Twin (laters fresh calls s) (laters fresh' calls t) := by
  induction calls generalizing s t fresh fresh' with
  | nil => exact .ok h
  | cons call rest ih =>
    obtain ⟨hcall, hrest⟩ := hcovered
    have hrun := coupled_run (fresh 0) (fresh' 0) call h hcall
    have hothers := ih (fun i => fresh (i + 1)) (fun i => fresh' (i + 1)) hrun.after hrest
    have hseen := hrun.outcome
    show Coupled Twin
      (((outcome (call.run (fresh 0) s) :: ·) <$> laters (fun i => fresh (i + 1)) rest)
        (after (call.run (fresh 0) s)))
      (((outcome (call.run (fresh' 0) t) :: ·) <$> laters (fun i => fresh' (i + 1)) rest)
        (after (call.run (fresh' 0) t)))
    rw [hseen]
    exact hothers.map _

/-- After `clear` nothing is readable. -/
theorem twin_clear (hs : s.WellFormed) (ht : t.WellFormed) (hbase : s.baseSize = t.baseSize)
    (hlittle : s.littleEndian = t.littleEndian) : Twin s.clear t.clear := by
  obtain ⟨hwell, -, hbytes⟩ := ByteArray.clear_spec hs
  obtain ⟨hwell', -, hbytes'⟩ := ByteArray.clear_spec ht
  exact ⟨⟨hwell, hwell', hbytes.trans hbytes'.symm, rfl, hlittle⟩, hbase, hbase⟩

/-- **`clear` forgets**, for any two states that the calls can reach, with the same size of
blocks and order of bytes, and any calls after `clear`, whatever the memory of new
blocks holds: as long as `setPosition` goes to where something has been written since,
or so far that it throws, both runs return and throw the same. -/
theorem forgets_of_covered (hs : ByteArray.system.Reachable s) (ht : ByteArray.system.Reachable t)
    (hbase : s.baseSize = t.baseSize) (hlittle : s.littleEndian = t.littleEndian)
    (fresh fresh' : ℕ → Fresh) {calls : List Later} (hcovered : AllCovered fresh calls s.clear) :
    outcome (laters fresh calls s.clear) = outcome (laters fresh' calls t.clear) := by
  have hwell := ByteArray.wellFormed_of_reachable hs
  have hwell' := ByteArray.wellFormed_of_reachable ht
  exact (coupled_laters fresh fresh' calls (twin_clear hwell hwell' hbase hlittle) hcovered).outcome

/-- Three bytes in a block of four. -/
theorem reachable_threeBytes (a b c : Byte) :
    ByteArray.system.Reachable ⟨4, 3, 4, 3, false, [[a, b, c, 0#8]], 0⟩ := by
  have hroom : ¬ [a, b, c].length > sizeMax - 0 := by
    show ¬ 3 > sizeMax - 0
    rw [sizeMax_eq]
    decide
  obtain ⟨s, hs, hreach⟩ := ByteArray.exists_new (b := 4) (by decide) (by decide)
  have hcall := ByteArray.reachable_call hreach (.write (fun _ _ => 0#8) [a, b, c])
  obtain rfl := Except.ok.inj hs
  rw [ByteArray.call, ByteArray.write, if_neg (List.cons_ne_nil a _), if_neg hroom] at hcall
  exact hcall

/-- After two histories: a byte is written, and the cursor goes back to it. -/
theorem forgets_of_covered_write :
    ∃ s t, s ≠ t ∧ outcome (laters (fun _ _ _ _ => 0#8)
        [.write [5#8], .setPosition 0, .reading .toString] (ByteArray.clear s)) =
      outcome (laters (fun _ _ _ _ => 9#8)
        [.write [5#8], .setPosition 0, .reading .toString] (ByteArray.clear t)) := by
  refine ⟨⟨4, 3, 4, 3, false, [[1#8, 2#8, 3#8, 0#8]], 0⟩,
    ⟨4, 3, 4, 3, false, [[7#8, 8#8, 9#8, 0#8]], 0⟩, ?_, ?_⟩
  · intro heq
    have hnodes := congrArg ByteArray.nodes heq
    revert hnodes
    decide
  · have hcovered : AllCovered (fun _ _ _ _ => 0#8) [.write [5#8], .setPosition 0, .reading .toString]
        (ByteArray.clear ⟨4, 3, 4, 3, false, [[1#8, 2#8, 3#8, 0#8]], 0⟩) :=
      ⟨trivial, .inl (Nat.zero_le _), trivial, trivial⟩
    exact forgets_of_covered (reachable_threeBytes 1#8 2#8 3#8) (reachable_threeBytes 7#8 8#8 9#8)
      rfl rfl _ _ hcovered

/-- After `clear` the cursor goes over the first block: the old bytes are there. -/
theorem not_forgets : ¬ ∀ s t, ByteArray.system.Reachable s → ByteArray.system.Reachable t →
    s.baseSize = t.baseSize → s.littleEndian = t.littleEndian → ∀ (fresh : ℕ → Fresh) calls,
      outcome (laters fresh calls s.clear) = outcome (laters fresh calls t.clear) := by
  intro hall
  have hsame := hall _ _ (reachable_threeBytes 1#8 2#8 3#8) (reachable_threeBytes 7#8 8#8 9#8) rfl rfl
    (fun _ _ _ _ => 0#8) [.setPosition 3, .reading (.readAt 3 0)]
  have hseen : outcome (laters (fun _ _ _ _ => 0#8) [.setPosition 3, .reading (.readAt 3 0)]
      (ByteArray.clear ⟨4, 3, 4, 3, false, [[1#8, 2#8, 3#8, 0#8]], 0⟩)) =
      .ok [.ok .nothing, .ok (.bytes [1#8, 2#8, 3#8])] := rfl
  have hother : outcome (laters (fun _ _ _ _ => 0#8) [.setPosition 3, .reading (.readAt 3 0)]
      (ByteArray.clear ⟨4, 3, 4, 3, false, [[7#8, 8#8, 9#8, 0#8]], 0⟩)) =
      .ok [.ok .nothing, .ok (.bytes [7#8, 8#8, 9#8])] := rfl
  rw [hseen, hother] at hsame
  simp at hsame

end Stream
