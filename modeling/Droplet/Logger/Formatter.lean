/-
The formatter of log records.

A pattern is taken apart once, into items that each append their part of a record.  The items
for the date have one cell on every thread, which holds the text of the last second that was
formatted, in the format of the item that formatted it.

* `Formatter` — a pattern with the items that are made of it;
* `parse_date` — the format of a date is what stands in braces;
* `traced_execute` — the cell is a memo of the last second;
* `date_texts` — what date items append: the second is always the one of the record, the format
  is the one of the first item in a row with this second, and so the own one where all agree.
-/
import Droplet.Config.Arithmetic
import Droplet.Lib.LastKey

open Http LastKey

namespace Logger

/-! ### Records -/

inductive LogLevel
  | debug | info | warn | error | fatal | off
  deriving DecidableEq

def LogLevel.toString : LogLevel → Bytes
  | debug => ascii "DEBUG"
  | info => ascii "INFO"
  | warn => ascii "WARN"
  | error => ascii "ERROR"
  | fatal => ascii "FATAL"
  | off => ascii "OFF"

/-- A record; times are in nanoseconds. -/
structure LogRecordView where
  level : LogLevel
  loggerName : Bytes
  message : Bytes
  timestamp : ℤ
  elapsed : ℤ
  threadId : UInt64
  fiberId : UInt64
  threadName : Bytes
  fileName : Bytes
  line : UInt32

/-- A `duration_cast` to a unit of so many nanoseconds cuts towards zero. -/
def durationCast (unit nanoseconds : ℤ) : ℤ := nanoseconds.tdiv unit

def LogRecordView.second (record : LogRecordView) : ℤ := durationCast 1000000000 record.timestamp

/-! ### Items -/

/-- A text without zeros, as the C library has it. -/
abbrev CString := {text : Bytes // (0 : UInt8) ∉ text}

def cStr (text : Bytes) : CString :=
  ⟨text.takeWhile (· != 0), fun h => by simpa using List.mem_takeWhile_imp h⟩

/-- `localtime_r` and `strftime`: the local time of a second, if there is one; the text of a
format; and what is left in an array that the text does not fit into. -/
structure Clock where
  Tm : Type
  localtime : ℤ → Option Tm
  strftime : CString → Tm → CString
  overrun : CString → Tm → CString → CString

namespace Clock

/-- `strftime` into an array: the number that it returns and the array after the call. -/
def strftimeInto (clock : Clock) (size : ℕ) (array format : CString) (tm : clock.Tm) :
    ℕ × CString :=
  let text := clock.strftime format tm
  if text.val.length + 1 ≤ size then (text.val.length, text)
  else (0, clock.overrun format tm array)

/-- The date without the cell. -/
def text (clock : Clock) (format : Bytes) (second : ℤ) : Option Bytes :=
  (clock.localtime second).map fun tm => (clock.strftime (cStr format) tm).val

/-- A second has a date of one to nineteen characters. -/
def Fits (clock : Clock) (format : Bytes) (second : ℤ) : Prop :=
  ∃ text, clock.text format second = some text ∧ 1 ≤ text.length ∧ text.length ≤ 19

end Clock

/-- What the date items of a thread share. -/
structure DateCache where
  lastSecond : ℤ := 0
  cachedDateTime : CString := ⟨[], List.not_mem_nil⟩

/-- `DateTimeFormatItem::format`: the cell after the call and what is appended. -/
def formatDateTime (clock : Clock) (format : Bytes) (cache : DateCache) (record : LogRecordView) :
    DateCache × Bytes :=
  let currentSecond := record.second
  if currentSecond ≠ cache.lastSecond then
    match clock.localtime currentSecond with
    | none => (cache, [])
    | some buffer =>
      let result := clock.strftimeInto 20 cache.cachedDateTime (cStr format) buffer
      -- the array is written also where the item gives up
      if result.1 = 0 then ({ cache with cachedDateTime := result.2 }, [])
      else (⟨currentSecond, result.2⟩, result.2.val)
  else (cache, cache.cachedDateTime.val)

def appendInteger (value : ℤ) : Bytes := (Config.toChars 24 value).getD []

/-- The last digits of a number, so many of them. -/
def digits : ℕ → ℕ → Bytes
  | 0, _ => []
  | width + 1, remaining => digits width (remaining / 10) ++ [48 + UInt8.ofNat (remaining % 10)]

def formatMicroseconds (record : LogRecordView) : Bytes :=
  let microseconds := (durationCast 1000 record.timestamp).tmod 1000000
  let microseconds := if microseconds < 0 then microseconds + 1000000 else microseconds
  digits 6 microseconds.toNat

inductive FormatItem
  | literal (value : Bytes)
  | message
  | level
  | elapsed
  | loggerName
  | threadId
  | newLine
  | dateTime (format : Bytes)
  | microseconds
  | fileName
  | line
  | tab
  | fiberId
  | threadName
  deriving DecidableEq

/-- The cell of the thread after an item, and what the item appends. -/
def FormatItem.format (clock : Clock) (cache : DateCache) (record : LogRecordView) :
    FormatItem → DateCache × Bytes
  | literal value => (cache, value)
  | message => (cache, record.message)
  | level => (cache, record.level.toString)
  | elapsed => (cache, appendInteger (durationCast 1000000 record.elapsed))
  | loggerName => (cache, record.loggerName)
  | threadId => (cache, appendInteger record.threadId.toNat)
  | newLine => (cache, ascii "\n")
  | dateTime format => formatDateTime clock format cache record
  | microseconds => (cache, formatMicroseconds record)
  | fileName => (cache, record.fileName)
  | line => (cache, appendInteger record.line.toNat)
  | tab => (cache, ascii "\t")
  | fiberId => (cache, appendInteger record.fiberId.toNat)
  | threadName => (cache, record.threadName)

/-! ### Patterns -/

def defaultDateFormat : Bytes := ascii "%Y-%m-%d %H:%M:%S"

/-- `CreateFormatItem`, without an item for an unknown directive. -/
def createFormatItem (directive : UInt8) (format : Bytes) : Option FormatItem :=
  if directive = 109 then some .message
  else if directive = 112 then some .level
  else if directive = 114 then some .elapsed
  else if directive = 99 then some .loggerName
  else if directive = 116 then some .threadId
  else if directive = 110 then some .newLine
  else if directive = 100 then some (.dateTime (if format = [] then defaultDateFormat else format))
  else if directive = 117 then some .microseconds
  else if directive = 102 then some .fileName
  else if directive = 108 then some .line
  else if directive = 84 then some .tab
  else if directive = 70 then some .fiberId
  else if directive = 78 then some .threadName
  else none

/-- The results `-1`, `-2` and `-3` of the parser. -/
inductive ParseError
  | incompleteDirective
  | missingBrace
  | nullItem
  deriving DecidableEq

def addLiteral (literal : Bytes) (items : List (Option FormatItem)) : List (Option FormatItem) :=
  if literal = [] then items else items ++ [some (.literal literal)]

/-- The text in braces behind a directive, and the characters that it takes up with them. -/
def itemFormat (tail : Bytes) : Except ParseError (Bytes × ℕ) :=
  if tail.head? = some 123 then
    match (tail.drop 1).findIdx? (· == 125) with
    | none => .error .missingBrace
    | some closingBrace =>
      if closingBrace = 0 then .error .missingBrace
      else .ok ((tail.drop 1).take closingBrace, closingBrace + 2)
  else .ok ([], 0)

/-- The loop of `Formatter::parse`; characters that the index has been moved over are skipped. -/
def parseLoop : Bytes → ℕ → Bytes → List (Option FormatItem) →
    Except ParseError (List (Option FormatItem))
  | [], _, literal, items => .ok (addLiteral literal items)
  | _ :: rest, skip + 1, literal, items => parseLoop rest skip literal items
  | c :: rest, 0, literal, items =>
    if c ≠ 37 then parseLoop rest 0 (literal ++ [c]) items
    else
      match rest.head? with
      | none => .error .incompleteDirective
      | some directive =>
        if directive = 37 then parseLoop rest 1 (literal ++ [37]) items
        else
          match itemFormat (rest.drop 1) with
          | .error e => .error e
          | .ok (format, skip) => parseLoop rest (1 + skip) []
              (addLiteral literal items ++ [createFormatItem directive format])

def parse (pattern : Bytes) : Except ParseError (List FormatItem) :=
  match parseLoop pattern 0 [] [] with
  | .error e => .error e
  | .ok items =>
    match items.mapM id with
    | none => .error .nullItem
    | some items => .ok items

/-- The constructor throws where the pattern cannot be parsed. -/
structure Formatter where
  pattern : Bytes
  items : List FormatItem
  parsed : parse pattern = .ok items

/-- Characters that the index has been moved over. -/
theorem parseLoop_skip (rest literal : Bytes) (items : List (Option FormatItem)) :
    parseLoop rest rest.length literal items = .ok (addLiteral literal items) := by
  induction rest with
  | nil => rfl
  | cons c rest ih => rw [List.length_cons, parseLoop, ih]

theorem itemFormat_braces {format : Bytes} (hne : format ≠ []) (hbrace : (125 : UInt8) ∉ format) :
    itemFormat (123 :: (format ++ [125])) = .ok (format, format.length + 2) := by
  have hclosing : (format ++ [125]).findIdx? (· == 125) = some format.length := by
    have hnone : format.findIdx? (· == 125) = none := by
      rw [List.findIdx?_eq_none_iff]
      intro b hb
      exact beq_eq_false_iff_ne.mpr fun h => hbrace (h ▸ hb)
    rw [List.findIdx?_append, hnone]
    simp
  have hpos : format.length ≠ 0 := mt List.length_eq_zero_iff.mp hne
  rw [itemFormat, List.head?_cons, if_pos rfl, List.drop_one, List.tail_cons, hclosing]
  dsimp only
  rw [if_neg hpos, List.take_left]

/-- **A date format** is any text without a closing brace. -/
theorem parse_date {format : Bytes} (hne : format ≠ []) (hbrace : (125 : UInt8) ∉ format) :
    parse (ascii "%d\x7b" ++ format ++ [125]) = .ok [.dateTime format] := by
  have hpattern : ascii "%d\x7b" ++ format ++ [125] =
      37 :: 100 :: 123 :: (format ++ [125]) := by
    rw [List.append_assoc]
    rfl
  have hitem : createFormatItem 100 format = some (.dateTime format) := by
    change some (FormatItem.dateTime (if format = [] then defaultDateFormat else format)) = _
    rw [if_neg hne]
  have hlength : 1 + (format.length + 2) = (100 :: 123 :: (format ++ [125])).length := by
    rw [List.length_cons, List.length_cons, List.length_append, List.length_singleton]
    omega
  have hloop : parseLoop (37 :: 100 :: 123 :: (format ++ [125])) 0 [] [] =
      .ok [some (.dateTime format)] := by
    rw [parseLoop, if_neg (not_not_intro rfl), List.head?_cons]
    dsimp only
    rw [if_neg (by decide), List.drop_one, List.tail_cons, itemFormat_braces hne hbrace]
    dsimp only
    rw [hlength, parseLoop_skip, hitem]
    rfl
  rw [parse, hpattern, hloop]
  rfl
/-! ### The records of a thread -/

/-- A run of an item, and what it appends. -/
structure Written where
  item : FormatItem
  record : LogRecordView
  text : Bytes

def execute (clock : Clock) (cache : DateCache) :
    List (FormatItem × LogRecordView) → DateCache × List Written
  | [] => (cache, [])
  | (item, record) :: rest =>
    let (cache, text) := item.format clock cache record
    let (cache, written) := execute clock cache rest
    (cache, ⟨item, record, text⟩ :: written)

def Formatter.format (clock : Clock) (f : Formatter) (cache : DateCache) (record : LogRecordView) :
    DateCache × List Written :=
  execute clock cache (f.items.map fun item => (item, record))

/-- What is in the buffer after a record. -/
def output (written : List Written) : Bytes := written.flatMap Written.text

/-- The records that are formatted on one thread, one after another, each by the formatter that
`Logger::setFormatter` has given its logger by then. -/
def formatAll (clock : Clock) (cache : DateCache) :
    List (Formatter × LogRecordView) → DateCache × List (List Written)
  | [] => (cache, [])
  | (f, record) :: calls =>
    let (cache, written) := f.format clock cache record
    let (cache, rest) := formatAll clock cache calls
    (cache, written :: rest)

/-- What a date item has appended. -/
structure DateText where
  format : Bytes
  second : ℤ
  text : Bytes
  deriving DecidableEq

def Written.dateText (w : Written) : Option DateText :=
  match w.item with
  | .dateTime format => some ⟨format, w.record.second, w.text⟩
  | _ => none

def dateTexts (clock : Clock) (calls : List (Formatter × LogRecordView)) : List DateText :=
  (formatAll clock {} calls).2.flatten.filterMap Written.dateText

/-- The dates of all calls fit into the cell. -/
def AllFit (clock : Clock) (calls : List (Formatter × LogRecordView)) : Prop :=
  ∀ f record, (f, record) ∈ calls → ∀ format, .dateTime format ∈ f.items →
    clock.Fits format record.second

/-! ### The cell -/

def DateCache.memo (cache : DateCache) : Memo ℤ Bytes := ⟨cache.lastSecond, cache.cachedDateTime⟩

/-- What a date item asks the cell for. -/
def Clock.request (clock : Clock) (format : Bytes) (second : ℤ) : Request ℤ Bytes :=
  ⟨second, fun s => (clock.text format s).getD []⟩

variable {clock : Clock} {cache : DateCache} {record : LogRecordView} {format : Bytes}
  {calls : List (Formatter × LogRecordView)} {executions : List (FormatItem × LogRecordView)}

/-- A date item asks the memo of the last second. -/
theorem memo_formatDateTime (cache : DateCache) (h : clock.Fits format record.second) :
    (formatDateTime clock format cache record).1.memo =
      cache.memo.ask (clock.request format record.second) ∧
    (formatDateTime clock format cache record).2 =
      (cache.memo.ask (clock.request format record.second)).value := by
  -- a hit appends what is there; a miss has a local time and a text that fits
  by_cases hsecond : record.second = cache.lastSecond
  · have hask : cache.memo.ask (clock.request format record.second) = cache.memo :=
      ask_of_eq hsecond
    rw [hask, formatDateTime]
    dsimp only
    rw [if_neg (not_ne_iff.mpr hsecond)]
    exact ⟨rfl, rfl⟩
  · have hask : cache.memo.ask (clock.request format record.second) =
        ⟨record.second, (clock.text format record.second).getD []⟩ := ask_of_ne hsecond
    obtain ⟨text, htext, hpos, hlength⟩ := h
    rw [hask, htext, Option.getD_some, formatDateTime]
    dsimp only
    rw [if_pos hsecond]
    rw [Clock.text, Option.map_eq_some_iff] at htext
    obtain ⟨tm, htm, rfl⟩ := htext
    have hinto : clock.strftimeInto 20 cache.cachedDateTime (cStr format) tm =
        ((clock.strftime (cStr format) tm).val.length, clock.strftime (cStr format) tm) := by
      rw [Clock.strftimeInto, if_pos (by omega)]
    rw [htm]
    dsimp only
    rw [hinto, if_neg (by dsimp only; omega)]
    exact ⟨rfl, rfl⟩

/-- What an item asks the cell for, if it is one for the date. -/
def dateRequest (clock : Clock) (e : FormatItem × LogRecordView) : Option (Request ℤ Bytes) :=
  match e.1 with
  | .dateTime format => some (clock.request format e.2.second)
  | _ => none

def DateText.traced (clock : Clock) (d : DateText) : Request ℤ Bytes × Bytes :=
  (clock.request d.format d.second, d.text)

/-- **The cell** is a memo of the last second. -/
theorem traced_execute
    (h : ∀ format record, (.dateTime format, record) ∈ executions →
      clock.Fits format record.second) :
    ((execute clock cache executions).2.filterMap Written.dateText).map (DateText.traced clock) =
      trace cache.memo (executions.filterMap (dateRequest clock)) := by
  induction executions generalizing cache with
  | nil => rfl
  | cons e rest ih =>
    obtain ⟨item, record⟩ := e
    have hrest : ∀ cache : DateCache, ((execute clock cache rest).2.filterMap
        Written.dateText).map (DateText.traced clock) =
          trace cache.memo (rest.filterMap (dateRequest clock)) :=
      fun cache => ih fun format record hmem => h format record (List.mem_cons_of_mem _ hmem)
    cases item with
    | dateTime format =>
      obtain ⟨hmemo, htext⟩ := memo_formatDateTime cache
        (h format record List.mem_cons_self)
      have hdate : dateRequest clock (.dateTime format, record) =
        some (clock.request format record.second) := rfl
      rw [List.filterMap_cons_some hdate, trace, ← htext, ← hmemo, ← hrest]
      rfl
    -- no other item looks at the cell
    | _ => exact hrest cache

/-! ### All records -/

theorem execute_append (clock : Clock) (cache : DateCache)
    (left right : List (FormatItem × LogRecordView)) :
    execute clock cache (left ++ right) =
      ((execute clock (execute clock cache left).1 right).1,
        (execute clock cache left).2 ++ (execute clock (execute clock cache left).1 right).2) := by
  induction left generalizing cache with
  | nil => rfl
  | cons e left ih =>
    obtain ⟨item, record⟩ := e
    rw [List.cons_append, execute, execute]
    dsimp only
    rw [ih]
    rfl

/-- The items of all records, one after another. -/
def itemsOf (calls : List (Formatter × LogRecordView)) : List (FormatItem × LogRecordView) :=
  calls.flatMap fun c => c.1.items.map fun item => (item, c.2)

theorem flatten_formatAll (clock : Clock) (cache : DateCache)
    (calls : List (Formatter × LogRecordView)) :
    (formatAll clock cache calls).2.flatten = (execute clock cache (itemsOf calls)).2 := by
  induction calls generalizing cache with
  | nil => rfl
  | cons c calls ih =>
    rw [itemsOf, List.flatMap_cons, execute_append, formatAll]
    dsimp only
    rw [List.flatten_cons, ih]
    rfl

theorem mem_itemsOf {item : FormatItem} : (item, record) ∈ itemsOf calls ↔
    ∃ f, (f, record) ∈ calls ∧ item ∈ f.items := by
  rw [itemsOf, List.mem_flatMap]
  constructor
  · rintro ⟨⟨f, record'⟩, hcall, hitem⟩
    obtain ⟨item', hitem', heq⟩ := List.mem_map.mp hitem
    obtain ⟨rfl, rfl⟩ := Prod.mk.inj heq
    exact ⟨f, hcall, hitem'⟩
  · rintro ⟨f, hcall, hitem⟩
    exact ⟨(f, record), hcall, List.mem_map.mpr ⟨item, hitem, rfl⟩⟩

theorem traced_dateTexts (h : AllFit clock calls) :
    (dateTexts clock calls).map (DateText.traced clock) =
      trace ⟨0, []⟩ ((itemsOf calls).filterMap (dateRequest clock)) := by
  rw [dateTexts, flatten_formatAll]
  refine traced_execute fun format record hmem => ?_
  obtain ⟨f, hcall, hitem⟩ := mem_itemsOf.mp hmem
  exact h f record hcall format hitem

theorem map_execute (clock : Clock) (cache : DateCache)
    (executions : List (FormatItem × LogRecordView)) :
    (execute clock cache executions).2.map (fun w => (w.item, w.record)) = executions := by
  induction executions generalizing cache with
  | nil => rfl
  | cons e rest ih =>
    obtain ⟨item, record⟩ := e
    rw [execute]
    dsimp only
    rw [List.map_cons, ih]

theorem dateText_eq_some {w : Written} {d : DateText} (h : w.dateText = some d) :
    w.item = .dateTime d.format ∧ w.record.second = d.second := by
  obtain ⟨item, record, text⟩ := w
  cases item with
  | dateTime format =>
    obtain rfl := Option.some.inj h
    exact ⟨rfl, rfl⟩
  | _ => exact absurd h (Option.some_ne_none d).symm

/-- What is appended fits. -/
theorem fits_of_mem {d : DateText} (h : AllFit clock calls) (hd : d ∈ dateTexts clock calls) :
    clock.Fits d.format d.second := by
  rw [dateTexts, flatten_formatAll, List.mem_filterMap] at hd
  obtain ⟨w, hw, hdate⟩ := hd
  obtain ⟨hitem, hsecond⟩ := dateText_eq_some hdate
  have hmem : (w.item, w.record) ∈ itemsOf calls := by
    have hmap := List.mem_map_of_mem (f := fun w : Written => (w.item, w.record)) hw
    rwa [map_execute] at hmap
  obtain ⟨f, hcall, hf⟩ := mem_itemsOf.mp hmem
  rw [← hsecond]
  exact h f w.record hcall d.format (hitem ▸ hf)

/-- The date of an item that is answered by its own computation. -/
theorem text_of_getD {d first : DateText} (h : clock.Fits first.format first.second)
    (htext : d.text = (clock.text first.format first.second).getD []) :
    clock.text first.format first.second = some d.text := by
  obtain ⟨text, hsome, -⟩ := h
  rw [htext, hsome, Option.getD_some]

/-- **Dates**: the items for the date with one second, in a row on their thread, append it in the
format of the first of them, where the item before had another second; so where all formats agree
each appends the date of its own record, once a second was not the initial one. -/
theorem date_texts (clock : Clock) (calls : List (Formatter × LogRecordView))
    (h : AllFit clock calls) :
    (∀ before first span after, dateTexts clock calls = before ++ first :: span ++ after →
      (before.getLast?.map DateText.second).getD 0 ≠ first.second →
      (∀ d ∈ span, d.second = first.second) →
      ∀ d ∈ first :: span, clock.text first.format d.second = some d.text) ∧
    ∀ format, (∀ d ∈ dateTexts clock calls, d.format = format) →
      ∀ before d after, dateTexts clock calls = before ++ d :: after →
        (∃ e ∈ before ++ [d], e.second ≠ 0) → clock.text d.format d.second = some d.text := by
  have htraced := traced_dateTexts h
  refine ⟨fun before first span after hsplit hfirst hspan d hd => ?_,
    fun format hformat before d after hsplit hkey => ?_⟩
  · -- the requests in a row are answered by the computation of the first
    have hfits : clock.Fits first.format first.second :=
      fits_of_mem h (by rw [hsplit]; simp)
    have hsecond : d.second = first.second := by
      rcases List.mem_cons.mp hd with rfl | hd
      · rfl
      · exact hspan d hd
    rw [hsplit, List.map_append, List.map_append, List.map_cons] at htraced
    have hlast : (((before.map (DateText.traced clock)).map Prod.fst).getLast?.map
        Request.key).getD 0 ≠ first.second := by
      rwa [List.map_map, List.getLast?_map, Option.map_map]
    have hkeys : ∀ w ∈ span.map (DateText.traced clock), w.1.key = first.second := by
      intro w hw
      obtain ⟨e, he, rfl⟩ := List.mem_map.mp hw
      exact hspan e he
    have hmem : d.traced clock ∈ (first.traced clock) :: span.map (DateText.traced clock) := by
      rw [← List.map_cons]
      exact List.mem_map_of_mem hd
    have hanswer := trace_span htraced.symm hlast hkeys _ hmem
    rw [hsecond]
    exact text_of_getD hfits hanswer
  · have hmem : d ∈ dateTexts clock calls := by
      rw [hsplit]
      simp
    -- with one format all requests bring the same computation
    have hmake : ∀ r ∈ (itemsOf calls).filterMap (dateRequest clock),
        r.make = (clock.request format 0).make := by
      intro r hr
      have hrequests := congrArg (List.map Prod.fst) htraced
      rw [map_fst_trace, List.map_map] at hrequests
      rw [← hrequests, List.mem_map] at hr
      obtain ⟨e, he, rfl⟩ := hr
      rw [← hformat e he]
      rfl
    have hkeys : ∃ r ∈ ((before.map (DateText.traced clock)).map Prod.fst) ++
        [clock.request d.format d.second], r.key ≠ 0 := by
      obtain ⟨e, he, hne⟩ := hkey
      refine ⟨clock.request e.format e.second, ?_, hne⟩
      rcases List.mem_append.mp he with he | he
      · refine List.mem_append_left _ ?_
        rw [List.map_map]
        exact List.mem_map_of_mem he
      · rw [List.mem_singleton.mp he]
        exact List.mem_append_right _ (List.mem_singleton_self _)
    rw [hsplit, List.map_append, List.map_cons] at htraced
    have hanswer := trace_same hmake htraced.symm hkeys
    refine text_of_getD (fits_of_mem h hmem) ?_
    rw [hanswer, hformat d hmem]
    rfl

/-! ### Two formats -/

/-- A clock in UTC, with the directives for hours, minutes and seconds. -/
def hourMinuteSecond (tm : ℤ × ℤ × ℤ) : Bytes → Bytes
  | 37 :: 72 :: format => digits 2 tm.1.toNat ++ hourMinuteSecond tm format
  | 37 :: 77 :: format => digits 2 tm.2.1.toNat ++ hourMinuteSecond tm format
  | 37 :: 83 :: format => digits 2 tm.2.2.toNat ++ hourMinuteSecond tm format
  | b :: format => b :: hourMinuteSecond tm format
  | [] => []

def utc : Clock where
  Tm := ℤ × ℤ × ℤ
  localtime second := some (second / 3600 % 24, second / 60 % 60, second % 60)
  strftime format tm := cStr (hourMinuteSecond tm format.val)
  overrun _ _ array := array

def hours : Formatter := ⟨ascii "%d{%H}", [.dateTime (ascii "%H")], by decide⟩

def minutes : Formatter := ⟨ascii "%d{%M}", [.dateTime (ascii "%M")], by decide⟩

/-- Two minutes past one. -/
def twoPastOne : LogRecordView where
  level := .info
  loggerName := ascii "root"
  message := ascii "message"
  timestamp := 3720000000000
  elapsed := 0
  threadId := 1
  fiberId := 1
  threadName := ascii "main"
  fileName := ascii "main.cc"
  line := 1

def twoFormats : List (Formatter × LogRecordView) := [(hours, twoPastOne), (minutes, twoPastOne)]

theorem dateTexts_twoFormats : dateTexts utc twoFormats =
    [⟨ascii "%H", 3720, ascii "01"⟩, ⟨ascii "%M", 3720, ascii "01"⟩] := by decide

theorem allFit_twoFormats : AllFit utc twoFormats := by
  intro f record hcall format hitem
  rw [twoFormats, List.mem_cons, List.mem_singleton] at hcall
  rcases hcall with hcall | hcall
  · obtain ⟨rfl, rfl⟩ := Prod.mk.inj hcall
    obtain rfl : format = ascii "%H" := by simpa [hours] using hitem
    exact ⟨ascii "01", by decide, by decide, by decide⟩
  · obtain ⟨rfl, rfl⟩ := Prod.mk.inj hcall
    obtain rfl : format = ascii "%M" := by simpa [minutes] using hitem
    exact ⟨ascii "02", by decide, by decide, by decide⟩

theorem date_texts_twoFormats : AllFit utc twoFormats ∧
    ∀ d ∈ dateTexts utc twoFormats, utc.text (ascii "%H") d.second = some d.text := by
  refine ⟨allFit_twoFormats, ?_⟩
  rw [dateTexts_twoFormats]
  exact (date_texts utc twoFormats allFit_twoFormats).1 [] ⟨ascii "%H", 3720, ascii "01"⟩
    [⟨ascii "%M", 3720, ascii "01"⟩] [] dateTexts_twoFormats (by decide) (by decide)

theorem not_transparent : ¬∀ (clock : Clock) (calls : List (Formatter × LogRecordView)),
    AllFit clock calls → ∀ d ∈ dateTexts clock calls,
      clock.text d.format d.second = some d.text := by
  intro h
  have hminutes := h utc twoFormats allFit_twoFormats ⟨ascii "%M", 3720, ascii "01"⟩
    (by rw [dateTexts_twoFormats]; simp)
  revert hminutes
  decide

end Logger
