/-
Files and hex dumps.

`writeToFile` writes the unread contents of a `ByteArray` buffer by buffer, and `readFromFile` puts
a file at the cursor of another one, 16 KiB at a time.  What the system does to the streams is a
parameter.

* `chunks_flatten`, `flatten_take_chunks` — the pieces in which data is passed on;
* `inputLoop_ok`, `inputLoop_error` — the loop of `readFromFile`, as one write of what fits;
* `copy_file` — a file that has been written is read into any other `ByteArray`, whatever the
  sizes of the blocks;
* `hex_injective` — a hex dump says what it is the dump of.
-/
import Droplet.Stream.Reading

open Splice Transition Transition.System

namespace Stream

/-! ### Streams -/

/-- The pieces of at most `limit` bytes, one for each round of a loop. -/
def chunksLoop (limit : ℕ) : ℕ → List Byte → List (List Byte)
  | 0, _ => []
  | fuel + 1, data =>
    if data = [] then [] else data.take limit :: chunksLoop limit fuel (data.drop limit)

def chunks (limit : ℕ) (data : List Byte) : List (List Byte) := chunksLoop limit data.length data

/-- A file that is written: whether it can be opened, and whether the stream is good after each of
the writes. -/
structure Output where
  opens : Bool
  good : ℕ → Bool

/-- A file that is read: what the stream gives before it ends or fails. -/
structure Input where
  opens : Bool
  content : List Byte
  bad : Bool

/-- The writes, from the one of number `k`: what the file holds after them, unless one fails. -/
def outputLoop (good : ℕ → Bool) : ℕ → List (List Byte) → List Byte → Option (List Byte)
  | _, [], file => some file
  | k, piece :: pieces, file =>
    if good k then outputLoop good (k + 1) pieces (file ++ piece) else none

namespace ByteArray

/-- The largest `std::streamsize`. -/
def streamsizeMax : ℕ := 2 ^ 63 - 1

/-- The size of the buffer of `readFromFile`. -/
def fileBufferSize : ℕ := 16 * 1024

/-- `writeToFile`: what the file holds when it returns true. -/
def writeToFile (s : ByteArray) (output : Output) : Option (List Byte) :=
  if output.opens then
    outputLoop output.good 0
      ((s.getReadBuffers sizeMax).2.flatMap fun buffer => chunks streamsizeMax (s.contents buffer)) []
  else none

/-- The loop of `readFromFile`, and whether it has thrown; `fresh` is for each of the writes. -/
def inputLoop (fresh : ℕ → ℕ → ℕ → Byte) :
    ℕ → List (List Byte) → ByteArray → ByteArray × Except Error Unit
  | _, [], s => (s, .ok ())
  | k, chunk :: rest, s =>
    match s.write (fresh k) chunk with
    | .error e => (s, .error e)
    | .ok s => inputLoop fresh (k + 1) rest s

/-- `readFromFile`. -/
def readFromFile (s : ByteArray) (fresh : ℕ → ℕ → ℕ → Byte) (input : Input) :
    ByteArray × Except Error Bool :=
  if input.opens then
    let r := inputLoop fresh 0 (chunks fileBufferSize input.content) s
    (r.1, r.2.map fun _ => !input.bad)
  else (s, .ok false)

end ByteArray

/-- A digit that `std::hex` prints. -/
def hexDigit (n : ℕ) : Char := "0123456789abcdef".toList.getD n '0'

/-- The loop of `toHexString`, from the byte of an index on. -/
def hexLoop : ℕ → List Byte → List Char
  | _, [] => []
  | index, value :: rest =>
    (if index ≠ 0 ∧ index % 32 = 0 then ['\n'] else []) ++
      [hexDigit (value.toNat / 16), hexDigit (value.toNat % 16), ' '] ++ hexLoop (index + 1) rest

/-- `toHexString`. -/
def ByteArray.toHexString (s : ByteArray) : Except Error (List Char) := s.toString.map (hexLoop 0)

/-! ### Pieces -/

variable {limit fuel k : ℕ} {data : List Byte}

theorem flatten_take_chunksLoop (hpos : 0 < limit) (hfuel : data.length ≤ fuel) (k : ℕ) :
    ((chunksLoop limit fuel data).take k).flatten = data.take (limit * k) := by
  induction fuel generalizing data k with
  | zero =>
    rw [List.length_eq_zero_iff.mp (Nat.le_zero.mp hfuel), chunksLoop, List.take_nil, List.take_nil]
    rfl
  | succ fuel ih =>
    rw [chunksLoop]
    by_cases hnil : data = []
    · rw [if_pos hnil, hnil, List.take_nil, List.take_nil]
      rfl
    · rw [if_neg hnil]
      cases k with
      | zero => rw [List.take_zero, Nat.mul_zero, List.take_zero]; rfl
      | succ k =>
        have hlength := List.length_pos_iff.mpr hnil
        have hrest : (data.drop limit).length ≤ fuel := by
          rw [List.length_drop]
          omega
        rw [List.take_succ_cons, List.flatten_cons, ih hrest, ← List.take_add, Nat.mul_succ,
          Nat.add_comm limit]

theorem length_chunksLoop_le (hpos : 0 < limit) (hfuel : data.length ≤ fuel) :
    (chunksLoop limit fuel data).length ≤ data.length := by
  induction fuel generalizing data with
  | zero => exact Nat.zero_le _
  | succ fuel ih =>
    rw [chunksLoop]
    by_cases hnil : data = []
    · rw [if_pos hnil]
      exact Nat.zero_le _
    · have hlength := List.length_pos_iff.mpr hnil
      have hfuel' : (data.drop limit).length ≤ fuel := by
        rw [List.length_drop]
        omega
      have hrest := ih hfuel'
      rw [List.length_drop] at hrest
      rw [if_neg hnil, List.length_cons]
      omega

/-- What the first pieces hold. -/
theorem flatten_take_chunks (hpos : 0 < limit) (data : List Byte) (k : ℕ) :
    ((chunks limit data).take k).flatten = data.take (limit * k) :=
  flatten_take_chunksLoop hpos (Nat.le_refl _) k

/-- Nothing is lost. -/
theorem chunks_flatten (hpos : 0 < limit) (data : List Byte) : (chunks limit data).flatten = data := by
  have hall := flatten_take_chunks hpos data data.length
  have hlength : (chunks limit data).length ≤ data.length :=
    length_chunksLoop_le hpos (Nat.le_refl _)
  rwa [List.take_of_length_le hlength, List.take_of_length_le (Nat.le_mul_of_pos_left _ hpos)]
    at hall

theorem outputLoop_eq {good : ℕ → Bool} {pieces : List (List Byte)} {file content : List Byte}
    (h : outputLoop good k pieces file = some content) : content = file ++ pieces.flatten := by
  induction pieces generalizing k file with
  | nil =>
    rw [outputLoop, Option.some_inj] at h
    rw [List.flatten_nil, List.append_nil, h]
  | cons piece pieces ih =>
    rw [outputLoop] at h
    split at h
    · rw [ih h, List.flatten_cons, List.append_assoc]
    · exact absurd h (by simp)

/-! ### The loops -/

namespace ByteArray

variable {s s' d d' : ByteArray} {fresh : ℕ → ℕ → ℕ → Byte} {pieces : List (List Byte)}

/-- What a write has to leave depends on the size of the blocks and the cursor. -/
theorem fits_write {n m : ℕ} (hbase : s'.baseSize = s.baseSize)
    (hposition : s'.position = s.position + n) : s'.Fits m ↔ s.Fits (n + m) := by
  rw [Fits, Fits, hbase, hposition, Nat.add_assoc s.position]

/-- What a write of all the pieces at once would leave. -/
structure Spliced (s : ByteArray) (source : List Byte) (s' : ByteArray) : Prop where
  wellFormed : s'.WellFormed
  baseSize : s'.baseSize = s.baseSize
  position : s'.position = s.position + source.length
  size : s'.size = max s.size (s.position + source.length)
  bytes : s'.bytes = splice s.bytes s.position source

theorem Spliced.refl (h : s.WellFormed) : Spliced s [] s where
  wellFormed := h
  baseSize := rfl
  position := rfl
  size := (Nat.max_eq_left h.position).symm
  bytes := (splice_nil _ _).symm

theorem Spliced.trans {t : ByteArray} {source more : List Byte} (hs : s.WellFormed)
    (h : Spliced s source t) (h' : Spliced t more s') : Spliced s (source ++ more) s' where
  wellFormed := h'.wellFormed
  baseSize := h'.baseSize.trans h.baseSize
  position := by rw [h'.position, h.position, List.length_append, Nat.add_assoc]
  size := by
    have hs' := h.size
    rw [h'.size, h.size, h.position, List.length_append]
    omega
  bytes := by
    have hle : s.position ≤ s.bytes.length := hs.length_bytes.symm ▸ hs.position
    rw [h'.bytes, h.bytes, h.position, splice_append hle]

theorem spliced_write (h : s.WellFormed) (source : List Byte) (hfits : s.Fits source.length)
    (content : ℕ → ℕ → Byte) : ∃ s', s.write content source = .ok s' ∧ Spliced s source s' := by
  obtain ⟨s', hwrite, hwell, hbase, hposition, hsize, -, -, hbytes⟩ := write_ok content h hfits
  exact ⟨s', hwrite, hwell, hbase, hposition, hsize, hbytes⟩

/-- **The loop of `readFromFile`**, when all fits: one write of all. -/
theorem inputLoop_ok (h : s.WellFormed) (hfits : s.Fits pieces.flatten.length) (k : ℕ) :
    ∃ s', inputLoop fresh k pieces s = (s', .ok ()) ∧ Spliced s pieces.flatten s' := by
  induction pieces generalizing s k with
  | nil => exact ⟨s, rfl, .refl h⟩
  | cons piece pieces ih =>
    rw [List.flatten_cons, List.length_append] at hfits
    obtain ⟨t, hwrite, ht⟩ :=
      spliced_write h piece (hfits.mono (Nat.le_add_right _ _)) (fresh k)
    obtain ⟨s', hloop, hs'⟩ :=
      ih ht.wellFormed ((fits_write ht.baseSize ht.position).mpr hfits) (k + 1)
    refine ⟨s', ?_, ht.trans h hs'⟩
    rw [inputLoop, hwrite]
    exact hloop

/-- When it does not, the pieces that fit have been written. -/
theorem inputLoop_error (h : s.WellFormed) (hfits : ¬ s.Fits pieces.flatten.length) (k : ℕ) :
    ∃ s' done, inputLoop fresh k pieces s = (s', .error .lengthError) ∧
      Spliced s (pieces.take done).flatten s' ∧
      ¬ s.Fits (pieces.take (done + 1)).flatten.length := by
  induction pieces generalizing s k with
  | nil =>
    have hroom : s.position + 0 ≤ s.capacity := Nat.le_trans h.position h.size
    exact absurd (h.fits_of_le hroom) hfits
  | cons piece pieces ih =>
    by_cases hpiece : s.Fits piece.length
    · obtain ⟨t, hwrite, ht⟩ := spliced_write h piece hpiece (fresh k)
      have hrest : ¬ t.Fits pieces.flatten.length := fun hrest => by
        refine hfits ?_
        rw [List.flatten_cons, List.length_append]
        exact (fits_write ht.baseSize ht.position).mp hrest
      obtain ⟨s', done, hloop, hs', hnext⟩ := ih ht.wellFormed hrest (k + 1)
      refine ⟨s', done + 1, ?_, ?_, fun hfit => hnext ?_⟩
      · rw [inputLoop, hwrite]
        exact hloop
      · rw [List.take_succ_cons, List.flatten_cons]
        exact ht.trans h hs'
      · rw [List.take_succ_cons, List.flatten_cons, List.length_append] at hfit
        exact (fits_write ht.baseSize ht.position).mpr hfit
    · refine ⟨s, 0, ?_, .refl h, ?_⟩
      · rw [inputLoop, write_error h hpiece]
      · rwa [List.take_succ_cons, List.take_zero, List.flatten_cons, List.flatten_nil,
          List.append_nil]

/-- `toString` gives the unread bytes. -/
theorem toString_eq (h : s.WellFormed) : s.toString = .ok (s.bytes.drop s.position) := by
  have hposition := h.position
  have hlength := h.length_bytes
  rw [toString, getReadSize]
  by_cases hzero : s.size - s.position = 0
  · rw [if_pos hzero, List.drop_of_length_le (by omega)]
  · rw [if_neg hzero, readAt_eq h, if_pos (.inr (by omega)),
      List.take_of_length_le (by rw [List.length_drop]; omega)]

/-- A file that has been written holds the unread bytes. -/
theorem writeToFile_eq (h : s.WellFormed) {output : Output} {content : List Byte}
    (hwrite : s.writeToFile output = some content) : content = s.bytes.drop s.position := by
  rw [writeToFile] at hwrite
  split at hwrite
  · have hpos : 0 < streamsizeMax := by decide
    have hpieces : ((s.getReadBuffers sizeMax).2.flatMap fun buffer =>
        chunks streamsizeMax (s.contents buffer)).flatten =
          (s.getReadBuffers sizeMax).2.flatMap s.contents := by
      rw [List.flatMap_def, List.flatten_flatten, List.map_map, List.flatMap_def]
      exact congrArg List.flatten (List.map_congr_left fun buffer _ => chunks_flatten hpos _)
    have hlength := h.length_bytes
    have hsize := h.size
    have hbound := h.bound
    rw [outputLoop_eq hwrite, List.nil_append, hpieces, (getReadBuffers_eq h sizeMax).2,
      Nat.min_eq_right (by omega), List.take_of_length_le (by rw [List.length_drop]; omega)]
  · exact absurd hwrite (by simp)

/-- The cursor goes back to where the write began. -/
theorem Spliced.rewind {source : List Byte} (hd : d.WellFormed) (h : Spliced d source d') :
    ∃ back, d'.setPosition d.position = .ok back ∧
      back.toString = .ok (source ++ d.bytes.drop (d.position + source.length)) := by
  have hle : d.position ≤ d'.size := by
    rw [h.size]
    exact Nat.le_trans hd.position (Nat.le_max_left _ _)
  obtain ⟨back, hback, hwell, hposition, hsize, -, -, hbytes⟩ :=
    setPosition_ok h.wellFormed (Nat.le_trans hle h.wellFormed.size)
  have hsame : d'.bytes = back.bytes := by
    refine hbytes.eq_of_length ?_
    rw [h.wellFormed.length_bytes, hwell.length_bytes, hsize, Nat.max_eq_left hle]
  refine ⟨back, hback, ?_⟩
  rw [toString_eq hwell, ← hsame, hposition, h.bytes,
    drop_splice (hd.length_bytes.symm ▸ hd.position)]

/-- **Through a file**: what one `ByteArray` has written another reads, as one write at its cursor
and back as it was, whatever the blocks of the two; when it does not fit, the buffers before the one
that does not have been written. -/
theorem copy_file (fresh : ℕ → ℕ → ℕ → Byte) (hs : system.Reachable s) (hd : system.Reachable d)
    {output : Output} {input : Input} (hwrite : s.writeToFile output = some input.content)
    (hopens : input.opens = true) (hgood : input.bad = false) :
    s.toString = .ok input.content ∧
    (d.Fits input.content.length → ∃ d', d.readFromFile fresh input = (d', .ok true) ∧
      d'.bytes = splice d.bytes d.position input.content ∧
      d'.position = d.position + input.content.length ∧
      ∃ back, d'.setPosition d.position = .ok back ∧
        back.toString =
          .ok (input.content ++ d.bytes.drop (d.position + input.content.length))) ∧
    (¬ d.Fits input.content.length → ∃ d' done,
      d.readFromFile fresh input = (d', .error .lengthError) ∧
      d'.bytes = splice d.bytes d.position (input.content.take (fileBufferSize * done)) ∧
      d'.position = d.position + (input.content.take (fileBufferSize * done)).length ∧
      ¬ d.Fits (input.content.take (fileBufferSize * (done + 1))).length) := by
  have hwell := wellFormed_of_reachable hs
  have hwell' := wellFormed_of_reachable hd
  have hpos : 0 < fileBufferSize := by decide
  have hflatten := chunks_flatten hpos input.content
  have hread : d.readFromFile fresh input =
      ((inputLoop fresh 0 (chunks fileBufferSize input.content) d).1,
        (inputLoop fresh 0 (chunks fileBufferSize input.content) d).2.map fun _ => true) := by
    rw [readFromFile, if_pos hopens, hgood]
    rfl
  refine ⟨?_, fun hfits => ?_, fun hfits => ?_⟩
  · rw [writeToFile_eq hwell hwrite]
    exact toString_eq hwell
  · rw [← hflatten] at hfits
    obtain ⟨d', hloop, hd'⟩ := @inputLoop_ok _ fresh _ hwell' hfits 0
    rw [hflatten] at hd'
    refine ⟨d', ?_, hd'.bytes, hd'.position, hd'.rewind hwell'⟩
    rw [hread, hloop]
    rfl
  · rw [← hflatten] at hfits
    obtain ⟨d', done, hloop, hd', hnext⟩ := @inputLoop_error _ fresh _ hwell' hfits 0
    rw [flatten_take_chunks hpos] at hd' hnext
    refine ⟨d', done, ?_, hd'.bytes, hd'.position, hnext⟩
    rw [hread, hloop]
    rfl

/-- From blocks of three bytes to blocks of two. -/
theorem copy_file_small : ∃ s d, system.Reachable s ∧ system.Reachable d ∧
    s.bytes = [1#8, 2#8, 3#8, 4#8] ∧ s.position = 1 ∧
    s.writeToFile ⟨true, fun _ => true⟩ = some [2#8, 3#8, 4#8] ∧
    s.toString = .ok [2#8, 3#8, 4#8] ∧
    ∃ d', d.readFromFile (fun _ _ _ => 0#8) ⟨true, [2#8, 3#8, 4#8], false⟩ = (d', .ok true) ∧
      d'.bytes = [9#8, 2#8, 3#8, 4#8] := by
  obtain ⟨s₀, hs₀, hnew⟩ := exists_new (b := 3) (by decide) (by decide)
  obtain ⟨d₀, hd₀, hnew'⟩ := exists_new (b := 2) (by decide) (by decide)
  obtain ⟨s, hs, hbytes, hposition, hwrite⟩ : ∃ s, system.exec s₀
      [.write (fun _ _ => 0#8) [1#8, 2#8, 3#8, 4#8], .setPosition 1] = some s ∧
      s.bytes = [1#8, 2#8, 3#8, 4#8] ∧ s.position = 1 ∧
      s.writeToFile ⟨true, fun _ => true⟩ = some [2#8, 3#8, 4#8] := by
    obtain rfl := Except.ok.inj hs₀
    exact ⟨_, rfl, by decide +kernel, by decide +kernel, by decide +kernel⟩
  obtain ⟨d, hd, hbytes', hposition', hbase⟩ : ∃ d, system.exec d₀
      [.write (fun _ _ => 0#8) [9#8]] = some d ∧ d.bytes = [9#8] ∧ d.position = 1 ∧
      d.baseSize = 2 := by
    obtain rfl := Except.ok.inj hd₀
    exact ⟨_, rfl, by decide +kernel, by decide +kernel, by decide +kernel⟩
  have hreach := hnew.exec (meets_true _ _ _) hs
  have hreach' := hnew'.exec (meets_true _ _ _) hd
  have hopens : (Input.mk true [2#8, 3#8, 4#8] false).opens = true := rfl
  obtain ⟨hstring, hread, -⟩ := copy_file (fun _ _ _ => 0#8) hreach hreach' hwrite hopens rfl
  have hfits : d.Fits [2#8, 3#8, 4#8].length := by
    rw [Fits, hbase, hposition', sizeMax_eq]
    decide
  obtain ⟨d', hd', hcopied, -, -⟩ := hread hfits
  refine ⟨s, d, hreach, hreach', hbytes, hposition, hwrite, hstring, d', hd', ?_⟩
  rw [hcopied, hbytes', hposition']
  rfl

/-! ### Hex dumps -/

end ByteArray

theorem hexDigit_injective {m n : ℕ} (hm : m < 16) (hn : n < 16) (h : hexDigit m = hexDigit n) :
    m = n := by
  have hall : ∀ m n : Fin 16, hexDigit m = hexDigit n → m = n := by decide
  have heq := hall ⟨m, hm⟩ ⟨n, hn⟩ h
  exact congrArg Fin.val heq

/-- A line ends where the index says. -/
theorem hexLoop_injective {index : ℕ} {data data' : List Byte}
    (h : hexLoop index data = hexLoop index data') : data = data' := by
  induction data generalizing index data' with
  | nil =>
    cases data' with
    | nil => rfl
    | cons value' rest' =>
      rw [hexLoop, hexLoop] at h
      exact absurd (congrArg List.length h) (by simp)
  | cons value rest ih =>
    cases data' with
    | nil =>
      rw [hexLoop, hexLoop] at h
      exact absurd (congrArg List.length h) (by simp)
    | cons value' rest' =>
      rw [hexLoop, hexLoop, List.append_assoc, List.append_assoc] at h
      have hline := List.append_cancel_left h
      rw [List.cons_append, List.cons_append, List.cons_append, List.cons_append] at hline
      obtain ⟨hhigh, hline⟩ := List.cons.inj hline
      obtain ⟨hlow, hline⟩ := List.cons.inj hline
      obtain ⟨-, hrest⟩ := List.cons.inj hline
      have hlt := value.isLt
      have hlt' := value'.isLt
      have hhigh := hexDigit_injective (by omega) (by omega) hhigh
      have hlow := hexDigit_injective (Nat.mod_lt _ (by decide)) (Nat.mod_lt _ (by decide)) hlow
      have hvalue : value = value' := by
        refine BitVec.eq_of_toNat_eq ?_
        omega
      rw [hvalue, ih hrest]

/-- Three characters a byte, and one where a line begins. -/
theorem length_hexLoop {index : ℕ} (hindex : index ≠ 0) (data : List Byte) :
    (hexLoop index data).length + (index + 31) / 32 =
      3 * data.length + (index + data.length + 31) / 32 := by
  induction data generalizing index with
  | nil => rfl
  | cons value rest ih =>
    have hrest := ih (show index + 1 ≠ 0 from Nat.succ_ne_zero index)
    rw [hexLoop, List.length_append, List.length_append, List.length_cons, List.length_cons,
      List.length_cons, List.length_nil, List.length_cons]
    by_cases hline : index % 32 = 0
    · rw [if_pos ⟨hindex, hline⟩, List.length_singleton]
      omega
    · rw [if_neg (fun h => hline h.2), List.length_nil]
      omega

/-- The first line begins with the dump. -/
theorem length_hexLoop_zero (data : List Byte) :
    (hexLoop 0 data).length = 3 * data.length + (data.length - 1) / 32 := by
  cases data with
  | nil => rfl
  | cons value rest =>
    have hrest := length_hexLoop (show 0 + 1 ≠ 0 from Nat.succ_ne_zero 0) rest
    rw [hexLoop, if_neg (fun h => h.1 rfl), List.nil_append, List.length_append, List.length_cons,
      List.length_cons, List.length_cons, List.length_nil, List.length_cons]
    omega

/-- **Hex dumps**: two of them are the same exactly for the same unread bytes, and have three
characters for each byte and one more for each line but the first. -/
theorem hex_injective {s t : ByteArray} (hs : ByteArray.system.Reachable s)
    (ht : ByteArray.system.Reachable t) :
    (s.toHexString = t.toHexString ↔ s.toString = t.toString) ∧
      ∃ text, s.toHexString = .ok text ∧
        text.length = 3 * s.getReadSize + (s.getReadSize - 1) / 32 := by
  have hwell := ByteArray.wellFormed_of_reachable hs
  have hwell' := ByteArray.wellFormed_of_reachable ht
  rw [ByteArray.toHexString, ByteArray.toHexString, ByteArray.toString_eq hwell,
    ByteArray.toString_eq hwell']
  refine ⟨⟨fun h => ?_, fun h => ?_⟩, _, rfl, ?_⟩
  · rw [hexLoop_injective (Except.ok.inj h)]
  · rw [Except.ok.inj h]
  · rw [length_hexLoop_zero, List.length_drop, hwell.length_bytes, ByteArray.getReadSize]

/-- The dump of a byte. -/
theorem hex_injective_byte : ∃ s, ByteArray.system.Reachable s ∧
    s.toHexString = .ok ['5', 'a', ' '] ∧
    (s.toHexString = s.toHexString ↔ s.toString = s.toString) := by
  obtain ⟨s₀, hs₀, hnew⟩ := ByteArray.exists_new (b := 4) (by decide) (by decide)
  obtain ⟨s, hs, htext⟩ : ∃ s, ByteArray.system.exec s₀
      [.write (fun _ _ => 0#8) [0x5A#8], .setPosition 0] = some s ∧
      s.toHexString = .ok ['5', 'a', ' '] := by
    obtain rfl := Except.ok.inj hs₀
    exact ⟨_, rfl, by decide +kernel⟩
  have hreach := hnew.exec (meets_true _ _ _) hs
  exact ⟨s, hreach, htext, (hex_injective hreach hreach).1⟩

end Stream
