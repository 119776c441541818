/-
The text of a log statement.

A statement streams its message into a buffer that is an array as long as the message is short,
and a vector from then on.  The record with this message is formatted into another such buffer,
and what is in there is handed to the appenders.

* `InlineBuffer` — the buffer; one that is neither in its array nor in its vector cannot be built;
* `Holds` — a buffer and its text: the vector is in use where the text is too long for the array;
* `statement_text` — what a statement hands over, for any inserts;
* `logPrintf_text` — the same for a `printf` format.
-/
import Droplet.Lib.Splice
import Droplet.Logger.Formatter

open Http Splice

namespace Logger

/-! ### The buffer -/

/-- `InlineBuffer`: the array, the vector and the size. -/
structure InlineBuffer (capacity : ℕ) where
  inline : Bytes
  overflow : Bytes
  size : ℕ
  length_inline : inline.length = capacity
  size_le : overflow = [] → size ≤ capacity
  size_eq : overflow ≠ [] → size = overflow.length ∧ capacity < size

namespace InlineBuffer

variable {capacity : ℕ} {b : InlineBuffer capacity} {text more : Bytes}

def new (capacity : ℕ) : InlineBuffer capacity where
  inline := List.replicate capacity 0
  overflow := []
  size := 0
  length_inline := List.length_replicate
  size_le := fun _ => Nat.zero_le _
  size_eq := fun h => absurd rfl h

/-- The characters that `data()` points to. -/
def data (b : InlineBuffer capacity) : Bytes :=
  if b.overflow = [] then b.inline else b.overflow

def view (b : InlineBuffer capacity) : Bytes := b.data.take b.size

/-- Overwriting a part of the array. -/
theorem length_copy (h : b.size + more.length ≤ capacity) :
    (splice b.inline b.size more).length = capacity := by
  have hinline := b.length_inline
  rw [length_splice (by omega)]
  omega

theorem length_moved (hempty : b.overflow = []) :
    (b.inline.take b.size ++ more).length = b.size + more.length := by
  have hinline := b.length_inline
  have hsize := b.size_le hempty
  rw [List.length_append, List.length_take]
  omega

def append (b : InlineBuffer capacity) (more : Bytes) : InlineBuffer capacity :=
  if hmore : more = [] then b
  else if hfits : b.overflow = [] ∧ b.size + more.length ≤ capacity then
    { inline := splice b.inline b.size more
      overflow := []
      size := b.size + more.length
      length_inline := length_copy hfits.2
      size_le := fun _ => hfits.2
      size_eq := fun h => absurd rfl h }
  else if hempty : b.overflow = [] then
    -- the vector takes over what is in the array
    { inline := b.inline
      overflow := b.inline.take b.size ++ more
      size := (b.inline.take b.size ++ more).length
      length_inline := b.length_inline
      size_le := fun h => absurd (List.append_eq_nil_iff.mp h).2 hmore
      size_eq := fun _ => by
        rw [length_moved hempty]
        exact ⟨rfl, Nat.lt_of_not_le fun h => hfits ⟨hempty, h⟩⟩ }
  else
    { inline := b.inline
      overflow := b.overflow ++ more
      size := (b.overflow ++ more).length
      length_inline := b.length_inline
      size_le := fun h => absurd (List.append_eq_nil_iff.mp h).2 hmore
      size_eq := fun _ => by
        obtain ⟨hsize, hlt⟩ := b.size_eq hempty
        rw [List.length_append]
        exact ⟨rfl, by omega⟩ }

/-- The text of a buffer, which is in the vector where the array is too short. -/
def Holds (b : InlineBuffer capacity) (text : Bytes) : Prop :=
  b.view = text ∧ b.size = text.length ∧ (b.overflow = [] ↔ text.length ≤ capacity)

theorem holds_view (b : InlineBuffer capacity) : b.Holds b.view := by
  have hinline := b.length_inline
  rw [Holds, view, data]
  by_cases hempty : b.overflow = []
  · have hsize := b.size_le hempty
    have hlength : (b.inline.take b.size).length = b.size := by
      rw [List.length_take]
      omega
    rw [if_pos hempty, hlength]
    exact ⟨rfl, rfl, iff_of_true hempty hsize⟩
  · obtain ⟨hsize, hlt⟩ := b.size_eq hempty
    have hlength : (b.overflow.take b.size).length = b.size := by
      rw [hsize, List.take_length]
    rw [if_neg hempty, hlength]
    exact ⟨rfl, rfl, iff_of_false hempty (by omega)⟩

theorem Holds.iff_view : b.Holds text ↔ b.view = text := by
  constructor
  · exact fun h => h.1
  · rintro rfl
    exact b.holds_view

theorem holds_new : (new capacity).Holds [] := Holds.iff_view.mpr List.take_zero

theorem view_append (b : InlineBuffer capacity) (more : Bytes) :
    (b.append more).view = b.view ++ more := by
  have hinline := b.length_inline
  by_cases hmore : more = []
  · rw [append, dif_pos hmore, hmore, List.append_nil]
  · by_cases hempty : b.overflow = []
    · have hsize := b.size_le hempty
      have hview : b.view = b.inline.take b.size := by rw [view, data, if_pos hempty]
      have hlength : (b.inline.take b.size ++ more).length = b.size + more.length :=
        length_moved hempty
      by_cases hfits : b.size + more.length ≤ capacity
      · -- written behind what the array has
        rw [append, dif_neg hmore, dif_pos ⟨hempty, hfits⟩, hview]
        show (splice b.inline b.size more).take (b.size + more.length) = _
        rw [splice, List.take_left' hlength]
      · rw [append, dif_neg hmore, dif_neg (fun h => hfits h.2), dif_pos hempty, hview]
        simp only [view, data, if_neg (List.append_ne_nil_of_right_ne_nil _ hmore),
          List.take_length]
    · obtain ⟨hsize, -⟩ := b.size_eq hempty
      have hview : b.view = b.overflow := by
        rw [view, data, if_neg hempty, hsize, List.take_length]
      rw [append, dif_neg hmore, dif_neg (fun h => hempty h.1), dif_neg hempty, hview]
      simp only [view, data, if_neg (List.append_ne_nil_of_right_ne_nil _ hmore),
        List.take_length]

theorem Holds.append (h : b.Holds text) (more : Bytes) : (b.append more).Holds (text ++ more) := by
  rw [Holds.iff_view] at h ⊢
  rw [view_append, h]

end InlineBuffer

/-! ### The stream -/

/-- `EOF`, the character that is none. -/
def eof : ℤ := -1

namespace SmallStreamBuffer

variable {capacity : ℕ}

/-- `xsputn`: the buffer, and the number of characters that were taken. -/
def xsputn (b : InlineBuffer capacity) (data : Bytes) (size : ℤ) : InlineBuffer capacity × ℤ :=
  if size ≤ 0 then (b, 0) else (b.append (data.take size.toNat), size)

/-- `overflow`; the end of the stream is reported as any other character. -/
def overflow (b : InlineBuffer capacity) (character : ℤ) : InlineBuffer capacity × ℤ :=
  if character = eof then (b, 0)
  else (b.append [UInt8.ofNat (character % 256).toNat], character)

end SmallStreamBuffer

/-- An `ostream` on the buffer; one that is not good takes no more characters. -/
structure Stream (capacity : ℕ) where
  buffer : InlineBuffer capacity
  good : Bool

/-- What an insertion operator calls in the end. -/
inductive Insert
  | write (data : Bytes)
  | put (character : UInt8)

def Insert.text : Insert → Bytes
  | write data => data
  | put character => [character]

namespace Stream

variable {capacity : ℕ} {s : Stream capacity} {text : Bytes}

def new (capacity : ℕ) : Stream capacity := ⟨.new capacity, true⟩

/-- `ostream::write` and `ostream::put`, which go bad where the stream buffer fails. -/
def insert (s : Stream capacity) (i : Insert) : Stream capacity :=
  if s.good then
    match i with
    | .write data =>
      let (buffer, count) := SmallStreamBuffer.xsputn s.buffer data data.length
      ⟨buffer, decide (count = data.length)⟩
    | .put character =>
      let (buffer, result) := SmallStreamBuffer.overflow s.buffer character.toNat
      ⟨buffer, decide (result ≠ eof)⟩
  else s

def insertAll (s : Stream capacity) (inserts : List Insert) : Stream capacity :=
  inserts.foldl insert s

/-- No insert makes the stream fail. -/
theorem insert_spec (hgood : s.good = true) (h : s.buffer.Holds text) (i : Insert) :
    (s.insert i).good = true ∧ (s.insert i).buffer.Holds (text ++ i.text) := by
  cases i with
  | write data =>
    by_cases hdata : data = []
    · subst hdata
      rw [Insert.text, List.append_nil]
      simpa [insert, hgood, SmallStreamBuffer.xsputn] using h
    · have hpos : 0 < data.length := List.length_pos_iff.mpr hdata
      simp only [insert, if_pos hgood, SmallStreamBuffer.xsputn, if_neg (show ¬ (data.length : ℤ) ≤ 0 by omega),
        Int.toNat_natCast, List.take_length, decide_true, true_and]
      exact h.append data
  | put character =>
    -- a character that is one is never taken for the end
    have hneof : (character.toNat : ℤ) ≠ eof := by
      rw [eof]
      omega
    have hchar : UInt8.ofNat ((character.toNat : ℤ) % 256).toNat = character := by
      have hlt := character.toNat_lt
      rw [Int.emod_eq_of_lt (by omega) (by omega), Int.toNat_natCast, UInt8.ofNat_toNat]
    simp only [insert, if_pos hgood, SmallStreamBuffer.overflow, if_neg hneof, hchar, decide_eq_true hneof, true_and]
    exact h.append [character]

theorem insertAll_spec (hgood : s.good = true) (h : s.buffer.Holds text) (inserts : List Insert) :
    (s.insertAll inserts).good = true ∧
      (s.insertAll inserts).buffer.Holds (text ++ inserts.flatMap Insert.text) := by
  induction inserts generalizing s text with
  | nil => exact ⟨hgood, by rwa [List.flatMap_nil, List.append_nil]⟩
  | cons i inserts ih =>
    obtain ⟨hgood', h'⟩ := insert_spec hgood h i
    rw [List.flatMap_cons, ← List.append_assoc]
    exact ih hgood' h'

theorem insertAll_new (capacity : ℕ) (inserts : List Insert) :
    ((new capacity).insertAll inserts).good = true ∧
      ((new capacity).insertAll inserts).buffer.Holds (inserts.flatMap Insert.text) := by
  have h := insertAll_spec (s := new capacity) rfl InlineBuffer.holds_new inserts
  rwa [List.nil_append] at h

end Stream

/-! ### Statements -/

def logMessageInlineCapacity : ℕ := 128

def printfFormatInlineCapacity : ℕ := 128

def formattedRecordInlineCapacity : ℕ := 256

/-- `LogLine`: the record without its message, and the stream. -/
structure LogLine where
  fields : LogRecordView
  stream : Stream logMessageInlineCapacity

namespace LogLine

def new (fields : LogRecordView) : LogLine := ⟨fields, .new _⟩

def insert (l : LogLine) (inserts : List Insert) : LogLine :=
  { l with stream := l.stream.insertAll inserts }

def getRecord (l : LogLine) : LogRecordView := { l.fields with message := l.stream.buffer.view }

end LogLine

/-- An item appends to the buffer what it has. -/
def FormatItem.formatInto (clock : Clock) (record : LogRecordView)
    (c : DateCache × InlineBuffer formattedRecordInlineCapacity) (item : FormatItem) :
    DateCache × InlineBuffer formattedRecordInlineCapacity :=
  let (cache, text) := item.format clock c.1 record
  (cache, c.2.append text)

/-- `Formatter::format`, on the cell of the thread and the buffer. -/
def Formatter.formatInto (clock : Clock) (f : Formatter) (cache : DateCache)
    (record : LogRecordView) (b : InlineBuffer formattedRecordInlineCapacity) :
    DateCache × InlineBuffer formattedRecordInlineCapacity :=
  f.items.foldl (FormatItem.formatInto clock record) (cache, b)

/-- What a record becomes on a thread: its cell, and the text that the appenders are given. -/
def formattedRecord (clock : Clock) (f : Formatter) (cache : DateCache) (record : LogRecordView) :
    DateCache × InlineBuffer formattedRecordInlineCapacity :=
  f.formatInto clock cache record (.new _)

variable {clock : Clock} {text : Bytes} {record : LogRecordView}
  {b : InlineBuffer formattedRecordInlineCapacity}

theorem foldl_formatInto (cache : DateCache) (h : b.Holds text) (items : List FormatItem) :
    (items.foldl (FormatItem.formatInto clock record) (cache, b)).1 =
        (execute clock cache (items.map fun item => (item, record))).1 ∧
      (items.foldl (FormatItem.formatInto clock record) (cache, b)).2.Holds
        (text ++ output (execute clock cache (items.map fun item => (item, record))).2) := by
  induction items generalizing cache b text with
  | nil => exact ⟨rfl, by simpa [output, execute] using h⟩
  | cons item items ih =>
    have hnext := ih (item.format clock cache record).1 (h.append (item.format clock cache record).2)
    rw [List.append_assoc] at hnext
    exact hnext

/-- The buffer has the texts of the items, one after another. -/
theorem formattedRecord_holds (clock : Clock) (f : Formatter) (cache : DateCache)
    (record : LogRecordView) :
    (formattedRecord clock f cache record).1 = (f.format clock cache record).1 ∧
      (formattedRecord clock f cache record).2.Holds
        (output (f.format clock cache record).2) :=
  foldl_formatInto cache InlineBuffer.holds_new f.items

theorem LogLine.getRecord_insert (fields : LogRecordView) (inserts : List Insert) :
    ((LogLine.new fields).insert inserts).getRecord =
      { fields with message := inserts.flatMap Insert.text } := by
  obtain ⟨-, hview, -⟩ := Stream.insertAll_new logMessageInlineCapacity inserts
  rw [LogLine.getRecord]
  congr 1

/-- **What a statement hands over.**  Whatever is inserted, in pieces of any length, nothing of it
is lost: the stream stays good, and the appenders are given the texts of the formatter's items for
the record whose message is all that was inserted.  Each of the two buffers goes to the heap
exactly where its text is too long for its array. -/
theorem statement_text (clock : Clock) (f : Formatter) (cache : DateCache) (fields : LogRecordView)
    (inserts : List Insert) :
    let message := inserts.flatMap Insert.text
    let line := (LogLine.new fields).insert inserts
    let formatted := formattedRecord clock f cache line.getRecord
    let written := f.format clock cache { fields with message := message }
    line.stream.good = true ∧
      (line.stream.buffer.overflow = [] ↔ message.length ≤ 128) ∧
      formatted.1 = written.1 ∧
      formatted.2.view = output written.2 ∧
      (formatted.2.overflow = [] ↔ (output written.2).length ≤ 256) := by
  intro message line formatted written
  obtain ⟨hgood, -, -, hheap⟩ := Stream.insertAll_new logMessageInlineCapacity inserts
  have hrecord : line.getRecord = { fields with message := message } :=
    LogLine.getRecord_insert fields inserts
  obtain ⟨hcache, hview, -, hspill⟩ := formattedRecord_holds clock f cache line.getRecord
  have hwritten : written = f.format clock cache line.getRecord :=
    congrArg (f.format clock cache) hrecord.symm
  rw [hwritten]
  exact ⟨hgood, hheap, hcache, hview, hspill⟩

/-! ### Formats -/

/-- `vsnprintf` on one format and its arguments, for the size of the array: the number that it
returns, and the array after the call. -/
structure Vsnprintf where
  result : ℕ → ℤ
  array : ℕ → Bytes

/-- A text is returned with its length, and is in the array where there is room behind it for a
zero; where there is no text the result is negative. -/
def Vsnprintf.Formats (v : Vsnprintf) : Option Bytes → Prop
  | none => ∀ size, v.result size < 0
  | some text => ∀ size, v.result size = text.length ∧
      (text.length < size → (v.array size).take text.length = text)

/-- `LogPrintf`: what it inserts; a format that is null is `none`. -/
def logPrintf : Option Vsnprintf → Insert
  | none => .write (ascii "<null-format>")
  | some v =>
    let requiredSize := v.result printfFormatInlineCapacity
    if requiredSize < 0 then .write (ascii "<format-error>")
    else
      let messageSize := requiredSize.toNat
      if messageSize < printfFormatInlineCapacity then
        .write ((v.array printfFormatInlineCapacity).take messageSize)
      else
        -- a second call, with an array that is long enough
        let secondResult := v.result (messageSize + 1)
        if secondResult < 0 then .write (ascii "<format-error>")
        else .write ((v.array (messageSize + 1)).take messageSize)

/-- What a format stands for in a message. -/
def printed : Option (Option Bytes) → Bytes
  | none => ascii "<null-format>"
  | some none => ascii "<format-error>"
  | some (some text) => text

theorem text_logPrintf {v : Vsnprintf} {text : Option Bytes} (h : v.Formats text) :
    (logPrintf (some v)).text = printed (some text) := by
  rcases text with _ | text
  · rw [logPrintf]
    dsimp only
    rw [if_pos (h _)]
    rfl
  · have hresult : ∀ size, v.result size = text.length := fun size => (h size).1
    rw [logPrintf]
    dsimp only
    rw [hresult, hresult, if_neg (by omega), Int.toNat_natCast]
    by_cases hshort : text.length < printfFormatInlineCapacity
    · rw [if_pos hshort, Insert.text, (h _).2 hshort]
      rfl
    · rw [if_neg hshort, if_neg (by omega), Insert.text, (h _).2 (Nat.lt_succ_self _)]
      rfl

/-- **What a formatted statement hands over**: at every length the record with the whole text of
the format, and a record that says so where there is no text. -/
theorem logPrintf_text (clock : Clock) (f : Formatter) (cache : DateCache) (fields : LogRecordView)
    (format : Option Vsnprintf) (text : Option (Option Bytes))
    (h : Option.Rel Vsnprintf.Formats format text) :
    (formattedRecord clock f cache
      ((LogLine.new fields).insert [logPrintf format]).getRecord).2.view =
        output (f.format clock cache { fields with message := printed text }).2 := by
  have hmessage : [logPrintf format].flatMap Insert.text = printed text := by
    rw [List.flatMap_singleton]
    cases h with
    | none => rfl
    | some hformats => exact text_logPrintf hformats
  obtain ⟨-, hview, -⟩ := formattedRecord_holds clock f cache
    ((LogLine.new fields).insert [logPrintf format]).getRecord
  rw [hview, LogLine.getRecord_insert, hmessage]

/-- The calls for a text; an array that is too short has what fits before its zero. -/
def Vsnprintf.of (text : Bytes) : Vsnprintf where
  result _ := text.length
  array size := text.take (size - 1) ++ [0]

theorem Vsnprintf.formats_of (text : Bytes) : (Vsnprintf.of text).Formats (some text) := by
  intro size
  refine ⟨rfl, fun hlt => ?_⟩
  have hall : text.take (size - 1) = text := List.take_of_length_le (by omega)
  show (text.take (size - 1) ++ [0]).take text.length = text
  rw [hall, List.take_left]

def messages : Formatter := ⟨ascii "%m", [.message], by decide⟩

/-- A text that just does not fit into the first array. -/
theorem logPrintf_text_long :
    (formattedRecord utc messages {}
      ((LogLine.new twoPastOne).insert
        [logPrintf (some (.of (List.replicate 128 97)))]).getRecord).2.view =
      List.replicate 128 97 := by
  rw [logPrintf_text utc messages {} twoPastOne (some (.of (List.replicate 128 97)))
    (some (some (List.replicate 128 97))) (.some (Vsnprintf.formats_of _))]
  exact List.append_nil _

end Logger
