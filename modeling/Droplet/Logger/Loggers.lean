/-
Loggers and appenders, used by many threads.

A call goes to the appenders of its logger, or to those of the root logger where it has none, one
after another, under a lock that it shares with other calls; a change of the appenders or of the
formatter waits until nobody has this lock.  A call of a thread is a sequence of steps here, and the
steps of all threads are interleaved in any way.

* `submit_delivers` — a record is written once for each place of each appender in the list, in one
  piece, in the text of the logger's formatter, and nowhere else;
* `flush_barrier` — what was written before a flush has been flushed when it is over, and a fatal
  record is never left behind.
-/
import Droplet.Lib.Transition
import Droplet.Logger.LogLine
import Mathlib.Data.Finset.Basic
import Mathlib.Data.Finset.Insert

open Http Transition

namespace Logger

def LogLevel.value : LogLevel → ℕ
  | debug => 1
  | info => 2
  | warn => 3
  | error => 4
  | fatal => 5
  | off => 6

abbrev LoggerId := ℕ

abbrev AppenderId := ℕ

abbrev ThreadId := ℕ

/-! ### Appenders -/

/-- What a call has written; the call is the one of this number on its thread. -/
structure Entry where
  thread : ThreadId
  call : ℕ
  level : LogLevel
  text : Bytes
  deriving DecidableEq

def Entry.isOf (t : ThreadId) (k : ℕ) (e : Entry) : Bool := e.thread == t && e.call == k

inductive AppenderKind
  | stdout | file

/-- `Appender::Impl`: the first `flushed` entries have been given to the system, and the first
`durable` of them to the disk. -/
structure Appender where
  kind : AppenderKind
  level : LogLevel := .debug
  output : List Entry := []
  flushed : ℕ := 0
  durable : ℕ := 0

namespace Appender

def writeUnlocked (a : Appender) (e : Entry) : Appender := { a with output := a.output ++ [e] }

def flushUnlocked (a : Appender) : Appender := { a with flushed := a.output.length }

def syncUnlocked (a : Appender) : Appender :=
  match a.kind with
  | .stdout => a.flushUnlocked
  | .file => { a.flushUnlocked with durable := a.output.length }

/-- The part of `append` that has the mutex. -/
def append (a : Appender) (e : Entry) : Appender :=
  if e.level = .fatal then (a.writeUnlocked e).flushUnlocked else a.writeUnlocked e

end Appender

/-! ### Loggers -/

/-- `Logger::Impl`; `readers` are the threads that have shared the mutex. -/
structure Impl where
  name : Bytes
  level : LogLevel := .debug
  formatter : Formatter
  appenders : List AppenderId := []
  root : Option LoggerId := none
  readers : Finset ThreadId := ∅

def defaultLogPattern : Bytes :=
  ascii "%d\x7b%Y-%m-%d %H:%M:%S\x7d.%u%Tthread=%t%Tfiber=%F%T[%p]%T%f:%l%T%m%n"

def defaultFormatter : Formatter where
  pattern := defaultLogPattern
  items := [.dateTime defaultDateFormat, .literal (ascii "."), .microseconds, .tab,
    .literal (ascii "thread="), .threadId, .tab, .literal (ascii "fiber="), .fiberId, .tab,
    .literal (ascii "["), .level, .literal (ascii "]"), .tab, .fileName, .literal (ascii ":"),
    .line, .tab, .message, .newLine]
  parsed := by decide +kernel

inductive Operation
  | submit (record : LogRecordView)
  | flush
  | sync

/-- Where a call is; `writing` has found that the level of its appender lets the record pass. -/
inductive Phase
  | checking
  | locking
  | locked
  | walking (i : ℕ)
  | writing (i : ℕ) (level : LogLevel)
  | done

/-- The call has shared the mutex of its logger. -/
def Phase.holds : Phase → Bool
  | locked | walking _ | writing .. => true
  | checking | locking | done => false

/-- An appender whose turn is over, and the level that it had then. -/
structure Turn where
  appender : AppenderId
  level : LogLevel

/-- A call.  It does not read the last two fields: what its logger had when it took the lock, and
how long the outputs were when it began. -/
structure Call where
  operation : Operation
  logger : LoggerId
  phase : Phase
  text : Bytes := []
  turns : List Turn := []
  seen : Option (Formatter × List AppenderId) := none
  marks : AppenderId → ℕ

/-- After the turn of the appender at `i`. -/
def Call.next (c : Call) (i : ℕ) (turn : Turn) : Call :=
  { c with phase := .walking (i + 1), turns := c.turns ++ [turn] }

structure Thread where
  cache : DateCache
  finished : List Call := []
  call : Option Call := none

/-- All calls of a thread, in their order. -/
def Thread.calls (th : Thread) : List Call := th.finished ++ th.call.toList

/-- The loggers with their manager, the appenders and the threads. -/
structure Loggers where
  loggers : LoggerId → Impl
  loggerCount : ℕ
  names : Bytes → Option LoggerId
  appenders : AppenderId → Appender
  threads : ThreadId → Thread

namespace Loggers

theorem zero_notMem_nil : (0 : UInt8) ∉ ([] : Bytes) := List.not_mem_nil

/-- A thread that has formatted nothing. -/
def newThread : Thread where
  cache := { cachedDateTime := ⟨[], zero_notMem_nil⟩ }

/-- `LoggerManager`: the root logger, which writes to the standard output. -/
def initial (kinds : AppenderId → AppenderKind) : Loggers where
  loggers _ := { name := ascii "root", formatter := defaultFormatter, appenders := [0] }
  loggerCount := 1
  names := Function.update (fun _ => none) (ascii "root") (some 0)
  appenders := Function.update (fun a => { kind := kinds a }) 0 { kind := .stdout }
  threads _ := newThread

def updateLogger (x : Loggers) (l : LoggerId) (f : Impl → Impl) : Loggers :=
  { x with loggers := Function.update x.loggers l (f (x.loggers l)) }

def updateAppender (x : Loggers) (a : AppenderId) (f : Appender → Appender) : Loggers :=
  { x with appenders := Function.update x.appenders a (f (x.appenders a)) }

def setThread (x : Loggers) (t : ThreadId) (th : Thread) : Loggers :=
  { x with threads := Function.update x.threads t th }

def setCall (x : Loggers) (t : ThreadId) (c : Call) : Loggers :=
  x.setThread t { x.threads t with call := some c }

def endCall (x : Loggers) (t : ThreadId) (c : Call) : Loggers :=
  x.setThread t { x.threads t with
    finished := (x.threads t).finished ++ [{ c with phase := .done }]
    call := none }

def lockShared (x : Loggers) (t : ThreadId) (l : LoggerId) : Loggers :=
  x.updateLogger l fun i => { i with readers := insert t i.readers }

def unlockShared (x : Loggers) (t : ThreadId) (l : LoggerId) : Loggers :=
  x.updateLogger l fun i => { i with readers := i.readers.erase t }

/-- `submit` looks at the level first, `flush` and `sync` do not. -/
def entry : Operation → Phase
  | .submit _ => .checking
  | .flush | .sync => .locking

def newCall (x : Loggers) (operation : Operation) (l : LoggerId) : Call where
  operation := operation
  logger := l
  phase := entry operation
  marks a := (x.appenders a).output.length

/-- The level of the logger. -/
def check (x : Loggers) (t : ThreadId) (c : Call) (record : LogRecordView) : Loggers :=
  if record.level.value < (x.loggers c.logger).level.value then x.endCall t c
  else x.setCall t { c with phase := .locking }

/-- The mutex is never had for itself between two steps. -/
def lock (x : Loggers) (t : ThreadId) (c : Call) : Loggers :=
  (x.lockShared t c.logger).setCall t { c with
    phase := .locked
    seen := some ((x.loggers c.logger).formatter, (x.loggers c.logger).appenders) }

/-- Without appenders the call goes on at the root logger, if there is one. -/
def fallBack (x : Loggers) (t : ThreadId) (c : Call) : Loggers :=
  match (x.loggers c.logger).root with
  | none => (x.unlockShared t c.logger).endCall t { c with seen := none }
  | some root => (x.unlockShared t c.logger).setCall t { c with
      logger := root
      phase := entry c.operation
      seen := none }

/-- The formatter makes the text of a record. -/
def begin (clock : Clock) (x : Loggers) (t : ThreadId) (c : Call) : Loggers :=
  match c.operation with
  | .submit record =>
    let formatted :=
      formattedRecord clock (x.loggers c.logger).formatter (x.threads t).cache record
    x.setThread t { x.threads t with
      cache := formatted.1
      call := some { c with phase := .walking 0, text := formatted.2.view } }
  | .flush | .sync => x.setCall t { c with phase := .walking 0 }

/-- The turn of an appender. -/
def visit (x : Loggers) (t : ThreadId) (c : Call) (i : ℕ) (a : AppenderId) : Loggers :=
  let next := c.next i ⟨a, (x.appenders a).level⟩
  match c.operation with
  | .submit record =>
    if record.level.value < (x.appenders a).level.value then x.setCall t next
    else x.setCall t { c with phase := .writing i (x.appenders a).level }
  | .flush => (x.updateAppender a Appender.flushUnlocked).setCall t next
  | .sync => (x.updateAppender a Appender.syncUnlocked).setCall t next

def write (x : Loggers) (t : ThreadId) (c : Call) (record : LogRecordView) (i : ℕ)
    (a : AppenderId) (level : LogLevel) : Loggers :=
  (x.updateAppender a fun appender =>
      appender.append ⟨t, (x.threads t).finished.length, record.level, c.text⟩).setCall t
    (c.next i ⟨a, level⟩)

/-- The next step of a call: `Logger::Impl::submit`, `flush` and `sync`. -/
def advance (clock : Clock) (x : Loggers) (t : ThreadId) (c : Call) : Option Loggers :=
  match c.phase, c.operation with
  | .checking, .submit record => some (x.check t c record)
  | .locking, _ => some (x.lock t c)
  | .locked, _ =>
    if (x.loggers c.logger).appenders = [] then some (x.fallBack t c) else some (x.begin clock t c)
  | .walking i, _ =>
    match (x.loggers c.logger).appenders[i]? with
    | none => some ((x.unlockShared t c.logger).endCall t c)
    | some a => some (x.visit t c i a)
  | .writing i level, .submit record =>
    (x.loggers c.logger).appenders[i]?.map fun a => x.write t c record i a level
  | _, _ => none

/-- `Logger(name)`, a logger that the manager does not know. -/
def newLogger (x : Loggers) (name : Bytes) (root : Option LoggerId) : Loggers :=
  { x with
    loggers := Function.update x.loggers x.loggerCount
      { name, formatter := defaultFormatter, root }
    loggerCount := x.loggerCount + 1 }

/-- `LoggerManager::getLogger`. -/
def getLogger (x : Loggers) (name : Bytes) : Loggers :=
  if name = [] then x
  else
    match x.names name with
    | some _ => x
    | none => { x.newLogger name (some 0) with
        names := Function.update x.names name (some x.loggerCount) }

end Loggers

/-- What a thread can do. -/
inductive Action
  | getLogger (name : Bytes)
  | newLogger (name : Bytes)
  | setLevel (l : LoggerId) (level : LogLevel)
  | setFormatter (l : LoggerId) (formatter : Formatter)
  | addAppender (l : LoggerId) (appender : Option AppenderId)
  | removeAppender (l : LoggerId) (appender : Option AppenderId)
  | clearAppenders (l : LoggerId)
  | setAppenderLevel (a : AppenderId) (level : LogLevel)
  | flushAppender (a : AppenderId)
  | syncAppender (a : AppenderId)
  | call (t : ThreadId) (operation : Operation) (l : LoggerId)
  | advance (t : ThreadId)

namespace Loggers

/-- A change under the mutex, which waits for the readers. -/
def exclusively (x : Loggers) (l : LoggerId) (f : Impl → Impl) : Option Loggers :=
  if l < x.loggerCount ∧ (x.loggers l).readers = ∅ then some (x.updateLogger l f) else none

def step (clock : Clock) (x : Loggers) : Action → Option Loggers
  | .getLogger name => some (x.getLogger name)
  -- the constructor throws without a name
  | .newLogger name => if name = [] then none else some (x.newLogger name none)
  | .setLevel l level =>
    if l < x.loggerCount then some (x.updateLogger l fun i => { i with level }) else none
  | .setFormatter l formatter => x.exclusively l fun i => { i with formatter }
  | .addAppender _ none => some x
  | .addAppender l (some a) => x.exclusively l fun i => { i with appenders := i.appenders ++ [a] }
  | .removeAppender l none => x.exclusively l id
  | .removeAppender l (some a) =>
    x.exclusively l fun i => { i with appenders := i.appenders.filter (· != a) }
  | .clearAppenders l => x.exclusively l fun i => { i with appenders := [] }
  | .setAppenderLevel a level => some (x.updateAppender a fun appender => { appender with level })
  | .flushAppender a => some (x.updateAppender a Appender.flushUnlocked)
  | .syncAppender a => some (x.updateAppender a Appender.syncUnlocked)
  | .call t operation l =>
    if l < x.loggerCount ∧ (x.threads t).call.isNone then
      some (x.setCall t (x.newCall operation l))
    else none
  | .advance t => (x.threads t).call.bind (x.advance clock t)

/-- The loggers of a program. -/
def system (clock : Clock) (kinds : AppenderId → AppenderKind) : System Loggers Action where
  init x := x = initial kinds
  step := step clock

end Loggers

/-! ### What a call has done -/

namespace Call

/-- The appenders whose turn is over. -/
def passed (c : Call) : List AppenderId := c.turns.map Turn.appender

/-- The appenders whose level has let the record pass. -/
def written (c : Call) : List AppenderId :=
  match c.operation with
  | .submit record =>
    (c.turns.filter fun turn => decide (turn.level.value ≤ record.level.value)).map Turn.appender
  | .flush | .sync => []

/-- What the call, number `k` of its thread, has left in the output of an appender. -/
def entries (c : Call) (t : ThreadId) (k : ℕ) (a : AppenderId) : List Entry :=
  match c.operation with
  | .submit record => List.replicate (c.written.count a) ⟨t, k, record.level, c.text⟩
  | .flush | .sync => []

/-- The text of the record. -/
def Formatted (clock : Clock) (c : Call) (f : Formatter) : Prop :=
  ∀ record, c.operation = .submit record →
    ∃ cache, c.text = (formattedRecord clock f cache record).2.view

/-- The appenders that the logger had when the call took the lock, up to where the call is. -/
def Ok (clock : Clock) (c : Call) : Prop :=
  match c.phase with
  | .checking | .locking => c.turns = [] ∧ c.seen = none
  | .locked => c.turns = []
  | .walking i => ∃ f appenders, c.seen = some (f, appenders) ∧ appenders ≠ [] ∧
      i ≤ appenders.length ∧ c.passed = appenders.take i ∧ c.Formatted clock f
  | .writing i level => (∃ f appenders, c.seen = some (f, appenders) ∧ appenders ≠ [] ∧
      i ≤ appenders.length ∧ c.passed = appenders.take i ∧ c.Formatted clock f) ∧
      ∀ record, c.operation = .submit record → level.value ≤ record.level.value
  | .done => (c.turns = [] ∧ c.seen = none) ∨ ∃ f appenders, c.seen = some (f, appenders) ∧
      appenders ≠ [] ∧ c.passed = appenders ∧ c.Formatted clock f

variable {clock : Clock} {c : Call} {t : ThreadId} {k : ℕ} {a : AppenderId}

theorem entries_eq_nil (h : c.turns = []) : c.entries t k a = [] := by
  rw [entries]
  cases hop : c.operation with
  | submit record => simp [written, hop, h]
  | flush => rfl
  | sync => rfl

theorem entries_other (h : ∀ record, c.operation ≠ .submit record) : c.entries t k a = [] := by
  rw [entries]
  cases hop : c.operation with
  | submit record => exact absurd hop (h record)
  | flush => rfl
  | sync => rfl

theorem entries_submit {record : LogRecordView} (h : c.operation = .submit record) :
    c.entries t k a = List.replicate (c.written.count a) ⟨t, k, record.level, c.text⟩ := by
  rw [entries, h]

/-- The turns are those of the first appenders. -/
theorem Ok.prefix (h : c.Ok clock) {f : Formatter} {appenders : List AppenderId}
    (hseen : c.seen = some (f, appenders)) : c.passed <+: appenders := by
  have hnil : c.turns = [] → c.passed <+: appenders := by
    intro hturns
    rw [passed, hturns]
    exact List.nil_prefix
  have htake : ∀ i f' appenders', c.seen = some (f', appenders') → c.passed = appenders'.take i →
      c.passed <+: appenders := by
    intro i f' appenders' hseen' hpassed
    obtain ⟨-, rfl⟩ := Prod.mk.inj (Option.some_inj.mp (hseen.symm.trans hseen'))
    rw [hpassed]
    exact List.take_prefix _ _
  rw [Ok] at h
  cases hphase : c.phase with
  | checking => rw [hphase] at h; exact hnil h.1
  | locking => rw [hphase] at h; exact hnil h.1
  | locked => rw [hphase] at h; exact hnil h
  | walking i =>
    rw [hphase] at h
    obtain ⟨f', appenders', hseen', -, -, hpassed, -⟩ := h
    exact htake i f' appenders' hseen' hpassed
  | writing i level =>
    rw [hphase] at h
    obtain ⟨⟨f', appenders', hseen', -, -, hpassed, -⟩, -⟩ := h
    exact htake i f' appenders' hseen' hpassed
  | done =>
    rw [hphase] at h
    rcases h with ⟨hturns, -⟩ | ⟨f', appenders', hseen', -, hpassed, -⟩
    · exact hnil hturns
    · exact htake appenders'.length f' appenders' hseen' (by rw [hpassed, List.take_length])

/-- At the end no appender is left. -/
theorem Ok.done (h : c.Ok clock) (hdone : c.phase = .done) :
    c.passed = c.seen.elim [] Prod.snd := by
  rw [Ok, hdone] at h
  rcases h with ⟨hturns, hseen⟩ | ⟨f, appenders, hseen, -, hpassed, -⟩
  · rw [hseen, passed, hturns]
    rfl
  · rw [hseen, hpassed]
    rfl

/-- A call that has been at an appender has its text. -/
theorem Ok.formatted (h : c.Ok clock) (hne : c.passed ≠ []) :
    ∃ f appenders, c.seen = some (f, appenders) ∧ c.Formatted clock f := by
  have hnil : c.turns ≠ [] := by
    intro hturns
    rw [passed, hturns] at hne
    exact hne rfl
  rw [Ok] at h
  cases hphase : c.phase with
  | checking => rw [hphase] at h; exact absurd h.1 hnil
  | locking => rw [hphase] at h; exact absurd h.1 hnil
  | locked => rw [hphase] at h; exact absurd h hnil
  | walking i =>
    rw [hphase] at h
    obtain ⟨f, appenders, hseen, -, -, -, hformatted⟩ := h
    exact ⟨f, appenders, hseen, hformatted⟩
  | writing i level =>
    rw [hphase] at h
    obtain ⟨⟨f, appenders, hseen, -, -, -, hformatted⟩, -⟩ := h
    exact ⟨f, appenders, hseen, hformatted⟩
  | done =>
    rw [hphase] at h
    rcases h with ⟨hturns, -⟩ | ⟨f, appenders, hseen, -, -, hformatted⟩
    · exact absurd hturns hnil
    · exact ⟨f, appenders, hseen, hformatted⟩

theorem written_next {record : LogRecordView} (h : c.operation = .submit record) (i : ℕ)
    (turn : Turn) : (c.next i turn).written =
      c.written ++ if turn.level.value ≤ record.level.value then [turn.appender] else [] := by
  simp only [written, next, h, List.filter_append, List.map_append]
  congr 1
  by_cases hlevel : turn.level.value ≤ record.level.value
  · simp [hlevel]
  · simp [hlevel]

end Call

namespace Appender

/-- No fatal record is left behind. -/
structure Sound (a : Appender) : Prop where
  flushed_le : a.flushed ≤ a.output.length
  durable_le : a.durable ≤ a.flushed
  fatal : ∀ e ∈ a.output.drop a.flushed, e.level ≠ .fatal

/-- What a flush or a sync has reached, up to the mark that it has made. -/
def Reached (a : Appender) (operation : Operation) (mark : ℕ) : Prop :=
  match operation with
  | .submit _ => True
  | .flush => mark ≤ a.flushed
  | .sync => mark ≤ a.flushed ∧ ∀ _ : a.kind = .file, mark ≤ a.durable

/-- What happens to an appender. -/
structure Before (a a' : Appender) : Prop where
  kind : a'.kind = a.kind
  output : a.output.length ≤ a'.output.length
  flushed : a.flushed ≤ a'.flushed
  durable : a.durable ≤ a'.durable
  sound : a'.Sound

variable {a a' : Appender} {operation : Operation} {mark : ℕ}

theorem Sound.refl (h : a.Sound) : a.Before a := ⟨rfl, le_refl _, le_refl _, le_refl _, h⟩

theorem Reached.mono (h : a.Reached operation mark) (hbefore : a.Before a') :
    a'.Reached operation mark := by
  cases operation with
  | submit record => exact h
  | flush => exact le_trans h hbefore.flushed
  | sync =>
    exact ⟨le_trans h.1 hbefore.flushed, fun hfile =>
      le_trans (h.2 (hbefore.kind ▸ hfile)) hbefore.durable⟩

theorem Sound.flush (h : a.Sound) : a.Before a.flushUnlocked where
  kind := rfl
  output := le_refl _
  flushed := h.flushed_le
  durable := le_refl _
  sound := ⟨le_refl _, le_trans h.durable_le h.flushed_le, fun e he => by
    rw [flushUnlocked, List.drop_length] at he
    exact absurd he List.not_mem_nil⟩

theorem Sound.sync (h : a.Sound) : a.Before a.syncUnlocked := by
  rw [syncUnlocked]
  cases hkind : a.kind with
  | stdout => exact h.flush
  | file =>
    exact ⟨rfl, le_refl _, h.flushed_le, le_trans h.durable_le h.flushed_le,
      ⟨h.flush.sound.flushed_le, le_refl _, h.flush.sound.fatal⟩⟩

theorem reached_sync (hmark : mark ≤ a.output.length) : a.syncUnlocked.Reached .sync mark := by
  rw [syncUnlocked]
  cases hkind : a.kind with
  | stdout => exact ⟨hmark, fun hfile => absurd (hkind.symm.trans hfile) (by simp)⟩
  | file => exact ⟨hmark, fun _ => hmark⟩

@[simp] theorem output_append (e : Entry) : (a.append e).output = a.output ++ [e] := by
  rw [append]
  split_ifs <;> rfl

/-- A fatal record is flushed at once, another one may wait. -/
theorem Sound.append (h : a.Sound) (e : Entry) : a.Before (a.append e) := by
  have hflushed := h.flushed_le
  have hwritten : (a.writeUnlocked e).output.length = a.output.length + 1 := by
    rw [writeUnlocked, List.length_append, List.length_singleton]
  by_cases hfatal : e.level = .fatal
  · rw [Appender.append, if_pos hfatal]
    refine ⟨rfl, ?_, ?_, le_refl _, ⟨le_refl _, ?_, fun e' he' => ?_⟩⟩
    · show a.output.length ≤ (a.writeUnlocked e).output.length
      omega
    · show a.flushed ≤ (a.writeUnlocked e).output.length
      omega
    · show a.durable ≤ (a.writeUnlocked e).output.length
      have hdurable := h.durable_le
      omega
    · rw [flushUnlocked, List.drop_length] at he'
      exact absurd he' List.not_mem_nil
  · rw [Appender.append, if_neg hfatal]
    refine ⟨rfl, ?_, le_refl _, le_refl _, ⟨?_, h.durable_le, fun e' he' => ?_⟩⟩
    · omega
    · show a.flushed ≤ (a.writeUnlocked e).output.length
      omega
    · rw [writeUnlocked, List.drop_append_of_le_length hflushed, List.mem_append,
        List.mem_singleton] at he'
      rcases he' with he' | rfl
      · exact h.fatal e' he'
      · exact hfatal

end Appender

/-! ### What a step changes -/

namespace Loggers

/-- What is only changed under the mutex. -/
def config (x : Loggers) (l : LoggerId) : Formatter × List AppenderId :=
  ((x.loggers l).formatter, (x.loggers l).appenders)

/-- A step of a call, which becomes `c'` and appends to the outputs. -/
structure Advanced (x x' : Loggers) (t : ThreadId) (c' : Call)
    (more : AppenderId → List Entry) : Prop where
  calls : (x'.threads t).calls = (x.threads t).finished ++ [c']
  call : ∀ c'', (x'.threads t).call = some c'' → c'' = c'
  others : ∀ t', t' ≠ t → x'.threads t' = x.threads t'
  config : ∀ l, x'.config l = x.config l
  root : ∀ l, (x'.loggers l).root = (x.loggers l).root
  count : x'.loggerCount = x.loggerCount
  readers : ∀ t' l, t' ∈ (x'.loggers l).readers ↔
    if t' = t then (x'.threads t).call.isSome ∧ c'.logger = l ∧ c'.phase.holds = true
    else t' ∈ (x.loggers l).readers
  output : ∀ a, (x'.appenders a).output = (x.appenders a).output ++ more a

/-- What the call and the appenders keep in a step of the call, number `k` of its thread. -/
structure Kept (clock : Clock) (x x' : Loggers) (t : ThreadId) (k : ℕ) (c c' : Call)
    (more : AppenderId → List Entry) : Prop where
  ok : c'.Ok clock
  seen : c'.phase.holds = true → c'.seen = some (x.config c'.logger)
  operation : c'.operation = c.operation
  marks : c'.marks = c.marks
  logger : c'.logger = c.logger ∨ (x.loggers c.logger).root = some c'.logger
  entries : ∀ a, c'.entries t k a = c.entries t k a ++ more a
  isOf : ∀ a, ∀ e ∈ more a, e.isOf t k = true
  before : ∀ a, (x.appenders a).Before (x'.appenders a)
  reached : ∀ a ∈ c'.passed, a ∈ c.passed ∨ (x'.appenders a).Reached c.operation (c.marks a)

section Updates

variable (x : Loggers) (t t' : ThreadId) (l l' : LoggerId) (c : Call) (f : Impl → Impl)
  (a : AppenderId) (g : Appender → Appender) (th : Thread)

@[simp] theorem threads_updateLogger : (x.updateLogger l f).threads = x.threads := rfl

@[simp] theorem appenders_updateLogger : (x.updateLogger l f).appenders = x.appenders := rfl

@[simp] theorem threads_updateAppender : (x.updateAppender a g).threads = x.threads := rfl

@[simp] theorem loggers_updateAppender : (x.updateAppender a g).loggers = x.loggers := rfl

@[simp] theorem threads_unlockShared : (x.unlockShared t l).threads = x.threads := rfl

@[simp] theorem threads_lockShared : (x.lockShared t l).threads = x.threads := rfl

theorem calls_setCall :
    ((x.setCall t c).threads t).calls = (x.threads t).finished ++ [c] := by
  simp [setCall, setThread, Thread.calls]

theorem calls_endCall : ((x.endCall t c).threads t).calls =
    (x.threads t).finished ++ [{ c with phase := .done }] := by
  simp [endCall, setThread, Thread.calls]

theorem readers_lockShared : t' ∈ ((x.lockShared t l).loggers l').readers ↔
    (t' = t ∧ l' = l) ∨ t' ∈ (x.loggers l').readers := by
  rw [lockShared, updateLogger]
  by_cases hl : l' = l
  · subst hl
    simp
  · simp [hl]

theorem readers_unlockShared : t' ∈ ((x.unlockShared t l).loggers l').readers ↔
    ¬ (t' = t ∧ l' = l) ∧ t' ∈ (x.loggers l').readers := by
  rw [unlockShared, updateLogger]
  by_cases hl : l' = l
  · subst hl
    simp
  · simp [hl]

theorem config_lockShared : (x.lockShared t l).config l' = x.config l' := by
  rw [config, config, lockShared, updateLogger]
  by_cases hl : l' = l
  · subst hl
    simp
  · simp [hl]

theorem config_unlockShared : (x.unlockShared t l).config l' = x.config l' := by
  rw [config, config, unlockShared, updateLogger]
  by_cases hl : l' = l
  · subst hl
    simp
  · simp [hl]

theorem root_lockShared :
    ((x.lockShared t l).loggers l').root = (x.loggers l').root := by
  rw [lockShared, updateLogger]
  by_cases hl : l' = l
  · subst hl
    simp
  · simp [hl]

theorem root_unlockShared :
    ((x.unlockShared t l).loggers l').root = (x.loggers l').root := by
  rw [unlockShared, updateLogger]
  by_cases hl : l' = l
  · subst hl
    simp
  · simp [hl]

end Updates

/-! ### A step of a call -/

variable {clock : Clock} {x x' y : Loggers} {t : ThreadId} {c c' : Call}
  {more : AppenderId → List Entry}

/-- The thread has shared the mutex of the logger of its call where the call says so. -/
def Held (x : Loggers) (t : ThreadId) (c : Call) : Prop :=
  ∀ l, t ∈ (x.loggers l).readers ↔ c.logger = l ∧ c.phase.holds = true

/-- The thread goes on with the call `c'`. -/
theorem advanced_setThread (cache : DateCache) (hthreads : y.threads = x.threads)
    (hconfig : ∀ l, y.config l = x.config l)
    (hroot : ∀ l, (y.loggers l).root = (x.loggers l).root)
    (hcount : y.loggerCount = x.loggerCount)
    (hreaders : ∀ t' l, t' ∈ (y.loggers l).readers ↔
      if t' = t then c'.logger = l ∧ c'.phase.holds = true else t' ∈ (x.loggers l).readers)
    (houtput : ∀ a, (y.appenders a).output = (x.appenders a).output ++ more a) :
    Advanced x (y.setThread t { y.threads t with cache := cache, call := some c' }) t c' more where
  calls := by simp [setThread, Thread.calls, hthreads]
  call := by simp [setThread]
  others t' ht' := by simp [setThread, ht', hthreads]
  config := hconfig
  root := hroot
  count := hcount
  readers t' l := by simpa [setThread] using hreaders t' l
  output := houtput

/-- The call of the thread is over. -/
theorem advanced_endCall (hthreads : y.threads = x.threads)
    (hconfig : ∀ l, y.config l = x.config l)
    (hroot : ∀ l, (y.loggers l).root = (x.loggers l).root)
    (hcount : y.loggerCount = x.loggerCount)
    (hreaders : ∀ t' l, t' ∈ (y.loggers l).readers ↔ t' ≠ t ∧ t' ∈ (x.loggers l).readers)
    (houtput : y.appenders = x.appenders) :
    Advanced x (y.endCall t c) t { c with phase := .done } fun _ => [] where
  calls := by simp [calls_endCall, hthreads]
  call := by simp [endCall, setThread]
  others t' ht' := by simp [endCall, setThread, ht', hthreads]
  config := hconfig
  root := hroot
  count := hcount
  readers t' l := by
    have hmem := hreaders t' l
    by_cases ht' : t' = t
    · simpa [endCall, setThread, ht'] using hmem
    · simpa [endCall, setThread, ht'] using hmem
  output a := by simp [endCall, setThread, houtput]

theorem Held.same (h : x.Held t c) (c' : Call) (hlogger : c'.logger = c.logger)
    (hholds : c'.phase.holds = c.phase.holds) (t' : ThreadId) (l : LoggerId) :
    t' ∈ (x.loggers l).readers ↔
      if t' = t then c'.logger = l ∧ c'.phase.holds = true else t' ∈ (x.loggers l).readers := by
  by_cases ht' : t' = t
  · rw [if_pos ht', ht', hlogger, hholds]
    exact h l
  · rw [if_neg ht']

theorem Held.lockShared (h : x.Held t c) (hlogger : c'.logger = c.logger)
    (hfree : c.phase.holds = false) (hholds : c'.phase.holds = true) (t' : ThreadId)
    (l : LoggerId) :
    t' ∈ ((x.lockShared t c.logger).loggers l).readers ↔
      if t' = t then c'.logger = l ∧ c'.phase.holds = true else t' ∈ (x.loggers l).readers := by
  have hl := h l
  rw [hfree] at hl
  rw [readers_lockShared]
  by_cases ht' : t' = t
  · subst ht'
    rw [if_pos rfl, hlogger, hholds]
    simp only [hl, true_and, Bool.false_eq_true, and_false, or_false, and_true]
    exact eq_comm
  · simp [ht']

/-- After the release the thread has shared no mutex. -/
theorem Held.unlockShared (h : x.Held t c) (t' : ThreadId) (l : LoggerId) :
    t' ∈ ((x.unlockShared t c.logger).loggers l).readers ↔
      t' ≠ t ∧ t' ∈ (x.loggers l).readers := by
  have hl := h l
  rw [readers_unlockShared]
  by_cases ht' : t' = t
  · subst ht'
    exact iff_of_false (fun hmem => hmem.1 ⟨rfl, (hl.mp hmem.2).1.symm⟩) fun hmem => hmem.1 rfl
  · simp [ht']

theorem Held.released (h : x.Held t c) (hfree : c'.phase.holds = false) (t' : ThreadId)
    (l : LoggerId) :
    t' ∈ ((x.unlockShared t c.logger).loggers l).readers ↔
      if t' = t then c'.logger = l ∧ c'.phase.holds = true else t' ∈ (x.loggers l).readers := by
  rw [h.unlockShared, hfree]
  by_cases ht' : t' = t
  · simp [ht']
  · simp [ht']

theorem Held.free (h : x.Held t c) (hfree : c.phase.holds = false) (t' : ThreadId)
    (l : LoggerId) : t' ∈ (x.loggers l).readers ↔ t' ≠ t ∧ t' ∈ (x.loggers l).readers := by
  have hl := h l
  rw [hfree] at hl
  by_cases ht' : t' = t
  · subst ht'
    simp [hl]
  · simp [ht']

/-! Every kind of step, one after another. -/

/-- A step that leaves the appenders alone. -/
theorem kept_quiet {k : ℕ} (hsound : ∀ a, (x.appenders a).Sound) (happ : x'.appenders = x.appenders)
    (hok : c'.Ok clock)
    (hseen : c'.phase.holds = true → c'.seen = some (x.config c'.logger))
    (hoperation : c'.operation = c.operation) (hmarks : c'.marks = c.marks)
    (hlogger : c'.logger = c.logger ∨ (x.loggers c.logger).root = some c'.logger)
    (hentries : ∀ a, c'.entries t k a = c.entries t k a) (hpassed : c'.passed = c.passed) :
    Kept clock x x' t k c c' fun _ => [] where
  ok := hok
  seen := hseen
  operation := hoperation
  marks := hmarks
  logger := hlogger
  entries a := by rw [hentries, List.append_nil]
  isOf a e he := absurd he List.not_mem_nil
  before a := by rw [happ]; exact (hsound a).refl
  reached a ha := .inl (hpassed ▸ ha)

/-- What is known of a call that makes a step. -/
structure Ready (clock : Clock) (x : Loggers) (t : ThreadId) (c : Call) : Prop where
  call : (x.threads t).call = some c
  held : x.Held t c
  ok : c.Ok clock
  seen : c.phase.holds = true → c.seen = some (x.config c.logger)
  sound : ∀ a, (x.appenders a).Sound
  marks : ∀ a, c.marks a ≤ (x.appenders a).output.length

/-- A step of the call has an outcome. -/
def Steps (clock : Clock) (x x' : Loggers) (t : ThreadId) (c : Call) : Prop :=
  ∃ c' more, Advanced x x' t c' more ∧ Kept clock x x' t (x.threads t).finished.length c c' more

theorem Ready.check (h : Ready clock x t c) (hphase : c.phase = .checking)
    (record : LogRecordView) : Steps clock x (x.check t c record) t c := by
  have hok := h.ok
  rw [Call.Ok, hphase] at hok
  have hfree : c.phase.holds = false := by rw [hphase]; rfl
  rw [Loggers.check]
  split_ifs with hlevel
  · exact ⟨_, _, advanced_endCall rfl (fun _ => rfl) (fun _ => rfl) rfl
      (h.held.free hfree) rfl, kept_quiet h.sound rfl (.inl hok) (by simp [Phase.holds])
      rfl rfl (.inl rfl) (fun _ => rfl) rfl⟩
  · refine ⟨{ c with phase := .locking }, _, advanced_setThread _ rfl (fun _ => rfl)
      (fun _ => rfl) rfl (h.held.same _ rfl (by rw [hfree]; rfl)) (fun a => (List.append_nil _).symm),
      kept_quiet h.sound rfl hok (by simp [Phase.holds]) rfl rfl (.inl rfl) (fun _ => rfl) rfl⟩

theorem Ready.lock (h : Ready clock x t c) (hphase : c.phase = .locking) :
    Steps clock x (x.lock t c) t c := by
  have hok := h.ok
  rw [Call.Ok, hphase] at hok
  have hfree : c.phase.holds = false := by rw [hphase]; rfl
  refine ⟨{ c with phase := .locked, seen := some (x.config c.logger) }, _,
    advanced_setThread _ rfl (fun l => config_lockShared _ _ _ _)
      (fun l => root_lockShared _ _ _ _) rfl (h.held.lockShared rfl hfree rfl)
      (fun a => (List.append_nil _).symm),
    kept_quiet h.sound rfl hok.1 (fun _ => rfl) rfl rfl (.inl rfl) (fun _ => rfl) rfl⟩

theorem Ready.fallBack (h : Ready clock x t c) (hphase : c.phase = .locked) :
    Steps clock x (x.fallBack t c) t c := by
  have hok := h.ok
  rw [Call.Ok, hphase] at hok
  rw [Loggers.fallBack]
  cases hroot : (x.loggers c.logger).root with
  | none =>
    exact ⟨_, _, advanced_endCall rfl (fun l => config_unlockShared _ _ _ _)
      (fun l => root_unlockShared _ _ _ _) rfl (h.held.unlockShared) rfl,
      kept_quiet h.sound rfl (.inl ⟨hok, rfl⟩) (by simp [Phase.holds]) rfl rfl (.inl rfl)
        (fun _ => rfl) rfl⟩
  | some root =>
    have hfree : (entry c.operation).holds = false := by
      cases c.operation <;> rfl
    refine ⟨{ c with logger := root, phase := entry c.operation, seen := none }, _,
      advanced_setThread _ rfl (fun l => config_unlockShared _ _ _ _)
        (fun l => root_unlockShared _ _ _ _) rfl (h.held.released hfree)
        (fun a => (List.append_nil _).symm),
      kept_quiet h.sound rfl ?_ (by simp [hfree]) rfl rfl (.inr hroot) (fun _ => rfl) rfl⟩
    rw [Call.Ok]
    cases hoperation : c.operation with
    | submit record => exact ⟨hok, rfl⟩
    | flush => exact ⟨hok, rfl⟩
    | sync => exact ⟨hok, rfl⟩

theorem begin_submit {record : LogRecordView} (h : c.operation = .submit record) :
    x.begin clock t c = x.setThread t { x.threads t with
      cache := (formattedRecord clock (x.loggers c.logger).formatter (x.threads t).cache record).1
      call := some { c with
        phase := .walking 0
        text := (formattedRecord clock (x.loggers c.logger).formatter (x.threads t).cache
          record).2.view } } := by
  cases c
  cases h
  rfl

theorem begin_other (h : ∀ record, c.operation ≠ .submit record) :
    x.begin clock t c = x.setCall t { c with phase := .walking 0 } := by
  obtain ⟨operation⟩ := c
  cases operation with
  | submit record => exact absurd rfl (h record)
  | flush => rfl
  | sync => rfl

theorem Ready.begin (h : Ready clock x t c) (hphase : c.phase = .locked)
    (hne : (x.loggers c.logger).appenders ≠ []) : Steps clock x (x.begin clock t c) t c := by
  have hok := h.ok
  rw [Call.Ok, hphase] at hok
  have hholds : c.phase.holds = true := by rw [hphase]; rfl
  have hseen := h.seen hholds
  have hpassed : c.passed = (x.loggers c.logger).appenders.take 0 := by
    rw [Call.passed, hok]
    rfl
  have hreaders := h.held.same { c with phase := .walking 0 } rfl hholds.symm
  by_cases hsubmit : ∃ record, c.operation = .submit record
  · obtain ⟨record, hoperation⟩ := hsubmit
    have hnone : ∀ text : Bytes, ∀ k a,
        Call.entries { c with phase := .walking 0, text := text } t k a = c.entries t k a := by
      intro text k a
      have hnew : Call.entries { c with phase := .walking 0, text := text } t k a = [] :=
        Call.entries_eq_nil hok
      rw [hnew, Call.entries_eq_nil hok]
    rw [begin_submit hoperation]
    refine ⟨{ c with
        phase := .walking 0
        text := (formattedRecord clock (x.loggers c.logger).formatter (x.threads t).cache
          record).2.view }, _,
      advanced_setThread _ rfl (fun _ => rfl) (fun _ => rfl) rfl hreaders
        (fun a => (List.append_nil _).symm),
      kept_quiet h.sound rfl ⟨_, _, hseen, hne, Nat.zero_le _, hpassed, ?_⟩ (fun _ => hseen) rfl
        rfl (.inl rfl) (hnone _ _) rfl⟩
    intro record' hrecord
    obtain rfl : record = record' := Operation.submit.inj (hoperation.symm.trans hrecord)
    exact ⟨_, rfl⟩
  · have hother : ∀ record, c.operation ≠ .submit record :=
      fun record hoperation => hsubmit ⟨record, hoperation⟩
    rw [begin_other hother]
    exact ⟨{ c with phase := .walking 0 }, _,
      advanced_setThread _ rfl (fun _ => rfl) (fun _ => rfl) rfl hreaders
        (fun a => (List.append_nil _).symm),
      kept_quiet h.sound rfl ⟨_, _, hseen, hne, Nat.zero_le _, hpassed,
          fun record hrecord => absurd hrecord (hother record)⟩ (fun _ => hseen) rfl
        rfl (.inl rfl) (fun _ => rfl) rfl⟩

/-- The call has been to all appenders. -/
theorem Ready.leave (h : Ready clock x t c) {i : ℕ} (hphase : c.phase = .walking i)
    (hend : (x.loggers c.logger).appenders[i]? = none) :
    Steps clock x ((x.unlockShared t c.logger).endCall t c) t c := by
  have hok := h.ok
  rw [Call.Ok, hphase] at hok
  obtain ⟨f, appenders, hseen, hne, -, hpassed, hformatted⟩ := hok
  have hholds : c.phase.holds = true := by rw [hphase]; rfl
  obtain ⟨rfl, rfl⟩ := Prod.mk.inj (Option.some_inj.mp (hseen.symm.trans (h.seen hholds)))
  have hall : c.passed = (x.loggers c.logger).appenders := by
    rw [hpassed, List.take_of_length_le (List.getElem?_eq_none_iff.mp hend)]
  exact ⟨_, _, advanced_endCall rfl (fun l => config_unlockShared _ _ _ _)
    (fun l => root_unlockShared _ _ _ _) rfl (h.held.unlockShared) rfl,
    kept_quiet h.sound rfl (.inr ⟨_, _, hseen, hne, hall, hformatted⟩) (by simp [Phase.holds])
      rfl rfl (.inl rfl) (fun _ => rfl) rfl⟩

/-- The appenders after a step on one of them. -/
theorem before_updateAppender (hsound : ∀ b, (x.appenders b).Sound) {a : AppenderId}
    {g : Appender → Appender} (hstep : (x.appenders a).Before (g (x.appenders a))) (b : AppenderId) :
    (x.appenders b).Before ((x.updateAppender a g).appenders b) := by
  rw [updateAppender]
  by_cases hb : b = a
  · subst hb
    simpa using hstep
  · simpa [hb] using (hsound b).refl

theorem output_updateAppender {a : AppenderId} {g : Appender → Appender} {added : List Entry}
    (h : (g (x.appenders a)).output = (x.appenders a).output ++ added) (b : AppenderId) :
    ((x.updateAppender a g).appenders b).output =
      (x.appenders b).output ++ if b = a then added else [] := by
  rw [updateAppender]
  by_cases hb : b = a
  · subst hb
    simpa using h
  · simp [hb]

/-- A call on its way through the appenders of its logger, at the one at `i`. -/
structure Turning (clock : Clock) (x : Loggers) (t : ThreadId) (c : Call) (i : ℕ)
    (a : AppenderId) : Prop extends Ready clock x t c where
  holds : c.phase.holds = true
  at' : (x.config c.logger).2[i]? = some a
  passed : c.passed = (x.config c.logger).2.take i
  formatted : c.Formatted clock (x.config c.logger).1

namespace Turning

variable {i : ℕ} {a : AppenderId}

/-- The turn of an appender is over; it was the next in the list. -/
theorem next (h : Turning clock x t c i a) (level : LogLevel)
    (hbefore : ∀ b, (x.appenders b).Before (x'.appenders b))
    (hreached : (x'.appenders a).Reached c.operation (c.marks a))
    (hentries : ∀ b, (c.next i ⟨a, level⟩).entries t (x.threads t).finished.length b =
      c.entries t (x.threads t).finished.length b ++ more b)
    (hisOf : ∀ b, ∀ e ∈ more b, e.isOf t (x.threads t).finished.length = true) :
    Kept clock x x' t (x.threads t).finished.length c (c.next i ⟨a, level⟩) more where
  ok := by
    have hlt : i < (x.config c.logger).2.length := (List.getElem?_eq_some_iff.mp h.at').1
    refine ⟨_, _, h.seen h.holds, List.ne_nil_of_length_pos (Nat.zero_lt_of_lt hlt), hlt, ?_,
      h.formatted⟩
    show _ = (x.config c.logger).2.take (i + 1)
    rw [Call.passed, Call.next, List.map_append, ← Call.passed, h.passed, List.take_add_one, h.at']
    rfl
  seen := fun _ => h.seen h.holds
  operation := rfl
  marks := rfl
  logger := .inl rfl
  entries := hentries
  isOf := hisOf
  before := hbefore
  reached := fun b hb => by
    rw [Call.passed, Call.next, List.map_append, List.mem_append, List.map_singleton,
      List.mem_singleton] at hb
    rcases hb with hb | rfl
    · exact .inl hb
    · exact .inr hreached

theorem readers (h : Turning clock x t c i a) (turn : Turn) (t' : ThreadId) (l : LoggerId) :
    t' ∈ (x.loggers l).readers ↔
      if t' = t then (c.next i turn).logger = l ∧ (c.next i turn).phase.holds = true
      else t' ∈ (x.loggers l).readers :=
  h.held.same (c.next i turn) rfl h.holds.symm t' l

/-- The level of the appender holds the record back. -/
theorem skip (h : Turning clock x t c i a) {record : LogRecordView}
    (hoperation : c.operation = .submit record)
    (hlevel : record.level.value < (x.appenders a).level.value) :
    Steps clock x (x.setCall t (c.next i ⟨a, (x.appenders a).level⟩)) t c := by
  refine ⟨_, fun _ => [], advanced_setThread _ rfl (fun _ => rfl) (fun _ => rfl) rfl
    (h.readers _) (fun a => (List.append_nil _).symm),
    h.next _ (fun b => (h.sound b).refl) (by rw [hoperation]; trivial) (fun b => ?_)
      fun b e he => absurd he List.not_mem_nil⟩
  rw [List.append_nil, Call.entries_submit hoperation, Call.entries_submit (c := c.next i _) hoperation,
    Call.written_next hoperation, if_neg (Nat.not_le.mpr hlevel), List.append_nil]
  rfl

/-- The level of the appender lets the record pass. -/
theorem pass (h : Turning clock x t c i a) (hphase : c.phase = .walking i)
    {record : LogRecordView} (hoperation : c.operation = .submit record)
    (hlevel : ¬ record.level.value < (x.appenders a).level.value) :
    Steps clock x (x.setCall t { c with phase := .writing i (x.appenders a).level }) t c := by
  have hok := h.ok
  rw [Call.Ok, hphase] at hok
  refine ⟨_, _, advanced_setThread _ rfl (fun _ => rfl) (fun _ => rfl) rfl
    (h.held.same { c with phase := .writing i (x.appenders a).level } rfl h.holds.symm)
    (fun a => (List.append_nil _).symm),
    kept_quiet h.sound rfl ⟨hok, fun record' hrecord => ?_⟩ (fun _ => h.seen h.holds) rfl rfl
      (.inl rfl) (fun _ => rfl) rfl⟩
  obtain rfl : record = record' := Operation.submit.inj (hoperation.symm.trans hrecord)
  omega

/-- A flush or a sync of the appender. -/
theorem reach (h : Turning clock x t c i a) {g : Appender → Appender}
    (hother : ∀ record, c.operation ≠ .submit record)
    (hstep : (x.appenders a).Before (g (x.appenders a)))
    (houtput : (g (x.appenders a)).output = (x.appenders a).output)
    (hreached : (g (x.appenders a)).Reached c.operation (c.marks a)) :
    Steps clock x ((x.updateAppender a g).setCall t (c.next i ⟨a, (x.appenders a).level⟩)) t c := by
  have hnew : ((x.updateAppender a g).appenders a).Reached c.operation (c.marks a) := by
    simpa [updateAppender] using hreached
  refine ⟨_, fun b => if b = a then [] else [],
    advanced_setThread _ rfl (fun _ => rfl) (fun _ => rfl) rfl (h.readers _)
      (output_updateAppender (by rw [houtput, List.append_nil])),
    h.next _ (before_updateAppender h.sound hstep) hnew (fun b => ?_)
      fun b e he => absurd he (by simp)⟩
  rw [ite_self, List.append_nil, Call.entries_other hother,
    Call.entries_other (c := c.next i _) hother]

/-- The record is written. -/
theorem write (h : Turning clock x t c i a) {record : LogRecordView}
    (hoperation : c.operation = .submit record) {level : LogLevel}
    (hlevel : level.value ≤ record.level.value) :
    Steps clock x (x.write t c record i a level) t c := by
  have hbefore := before_updateAppender h.sound
    (g := fun appender => appender.append ⟨t, (x.threads t).finished.length, record.level, c.text⟩)
    ((h.sound a).append _)
  refine ⟨_, fun b => if b = a then
      [⟨t, (x.threads t).finished.length, record.level, c.text⟩] else [],
    advanced_setThread _ rfl (fun _ => rfl) (fun _ => rfl) rfl (h.readers _)
      (output_updateAppender (Appender.output_append _)),
    h.next level hbefore (by rw [hoperation]; trivial) (fun b => ?_) fun b e he => ?_⟩
  · rw [Call.entries_submit hoperation, Call.entries_submit (c := c.next i _) hoperation,
      Call.written_next hoperation, if_pos hlevel, List.count_append, List.replicate_add]
    congr 1
    by_cases hb : b = a
    · subst hb
      simp [Call.next]
    · rw [if_neg hb, List.count_eq_zero_of_not_mem (by simpa using hb), List.replicate_zero]
  · by_cases hb : b = a
    · rw [if_pos hb, List.mem_singleton] at he
      rw [he]
      simp [Entry.isOf]
    · rw [if_neg hb] at he
      exact absurd he List.not_mem_nil

end Turning

theorem visit_submit {i : ℕ} {a : AppenderId} {record : LogRecordView}
    (h : c.operation = .submit record) : x.visit t c i a =
      if record.level.value < (x.appenders a).level.value then
        x.setCall t (c.next i ⟨a, (x.appenders a).level⟩)
      else x.setCall t { c with phase := .writing i (x.appenders a).level } := by
  cases c
  cases h
  rfl

/-- A call in the loop over the appenders. -/
theorem Ready.turning (h : Ready clock x t c) {i : ℕ} {a : AppenderId}
    (hphase : c.phase = .walking i ∨ ∃ level, c.phase = .writing i level)
    (ha : (x.loggers c.logger).appenders[i]? = some a) : Turning clock x t c i a := by
  have hok := h.ok
  have hholds : c.phase.holds = true := by
    rcases hphase with hphase | ⟨level, hphase⟩
    · rw [hphase]; rfl
    · rw [hphase]; rfl
  have hwalk : ∃ f appenders, c.seen = some (f, appenders) ∧ appenders ≠ [] ∧
      i ≤ appenders.length ∧ c.passed = appenders.take i ∧ c.Formatted clock f := by
    rcases hphase with hphase | ⟨level, hphase⟩
    · rw [Call.Ok, hphase] at hok
      exact hok
    · rw [Call.Ok, hphase] at hok
      exact hok.1
  obtain ⟨f, appenders, hseen, hne, hle, hpassed, hformatted⟩ := hwalk
  obtain ⟨rfl, rfl⟩ := Prod.mk.inj (Option.some_inj.mp (hseen.symm.trans (h.seen hholds)))
  exact ⟨h, hholds, ha, hpassed, hformatted⟩

theorem Ready.visit (h : Ready clock x t c) {i : ℕ} {a : AppenderId}
    (hphase : c.phase = .walking i) (ha : (x.loggers c.logger).appenders[i]? = some a) :
    Steps clock x (x.visit t c i a) t c := by
  have hturning := h.turning (.inl hphase) ha
  cases hoperation : c.operation with
  | submit record =>
    rw [visit_submit hoperation]
    split_ifs with hlevel
    · exact hturning.skip hoperation hlevel
    · exact hturning.pass hphase hoperation hlevel
  | flush =>
    have hvisit : x.visit t c i a = (x.updateAppender a Appender.flushUnlocked).setCall t
        (c.next i ⟨a, (x.appenders a).level⟩) := by
      rw [Loggers.visit, hoperation]
    rw [hvisit]
    refine hturning.reach (by simp [hoperation]) (h.sound a).flush rfl ?_
    rw [hoperation]
    exact h.marks a
  | sync =>
    have hvisit : x.visit t c i a = (x.updateAppender a Appender.syncUnlocked).setCall t
        (c.next i ⟨a, (x.appenders a).level⟩) := by
      rw [Loggers.visit, hoperation]
    rw [hvisit]
    refine hturning.reach (by simp [hoperation]) (h.sound a).sync ?_ ?_
    · rw [Appender.syncUnlocked]
      cases (x.appenders a).kind <;> rfl
    · rw [hoperation]
      exact Appender.reached_sync (h.marks a)

/-- **A step of a call.** -/
theorem Ready.advance (h : Ready clock x t c) (hstep : x.advance clock t c = some x') :
    Steps clock x x' t c := by
  rw [Loggers.advance] at hstep
  split at hstep
  · next hphase hoperation =>
    obtain rfl := Option.some_inj.mp hstep
    exact h.check hphase _
  · next hphase =>
    obtain rfl := Option.some_inj.mp hstep
    exact h.lock hphase
  · next hphase =>
    split_ifs at hstep with hempty
    · obtain rfl := Option.some_inj.mp hstep
      exact h.fallBack hphase
    · obtain rfl := Option.some_inj.mp hstep
      exact h.begin hphase hempty
  · next i hphase =>
    cases ha : (x.loggers c.logger).appenders[i]? with
    | none =>
      rw [ha] at hstep
      obtain rfl := Option.some_inj.mp hstep
      exact h.leave hphase ha
    | some a =>
      rw [ha] at hstep
      obtain rfl := Option.some_inj.mp hstep
      exact h.visit hphase ha
  · next i level record hphase hoperation =>
    obtain ⟨a, ha, rfl⟩ := Option.map_eq_some_iff.mp hstep
    have hok := h.ok
    rw [Call.Ok, hphase] at hok
    exact (h.turning (.inr ⟨level, hphase⟩) ha).write hoperation (hok.2 record hoperation)
  · exact absurd hstep (by simp)

/-! ### Every run -/

structure Inv (clock : Clock) (x : Loggers) : Prop where
  readers : ∀ t l, t ∈ (x.loggers l).readers ↔
    ∃ c, (x.threads t).call = some c ∧ c.logger = l ∧ c.phase.holds = true
  seen : ∀ t c, (x.threads t).call = some c → c.phase.holds = true →
    c.seen = some (x.config c.logger)
  logger : ∀ t c, (x.threads t).call = some c → c.logger < x.loggerCount
  root : ∀ l r, (x.loggers l).root = some r → r = 0 ∧ l ≠ 0
  count : 0 < x.loggerCount
  ok : ∀ t, ∀ c ∈ (x.threads t).calls, c.Ok clock
  entries : ∀ t k a, (x.appenders a).output.filter (Entry.isOf t k) =
    ((x.threads t).calls[k]?).elim [] fun c => c.entries t k a
  sound : ∀ a, (x.appenders a).Sound
  marks : ∀ t, ∀ c ∈ (x.threads t).calls, ∀ a, c.marks a ≤ (x.appenders a).output.length
  reached : ∀ t, ∀ c ∈ (x.threads t).calls, ∀ a ∈ c.passed,
    (x.appenders a).Reached c.operation (c.marks a)

theorem calls_initial (kinds : AppenderId → AppenderKind) (t : ThreadId) :
    ((initial kinds).threads t).calls = [] := rfl

theorem inv_initial (clock : Clock) (kinds : AppenderId → AppenderKind) :
    (initial kinds).Inv clock where
  readers t l := by simp [initial, newThread]
  seen t c hc := absurd hc (by simp [initial, newThread])
  logger t c hc := absurd hc (by simp [initial, newThread])
  root l r hr := by simp [initial] at hr
  count := Nat.one_pos
  ok t c hc := absurd hc (by simp [calls_initial])
  entries t k a := by
    rw [calls_initial]
    by_cases ha : a = 0
    · subst ha
      simp [initial]
    · simp [initial, ha]
  sound a := by
    by_cases ha : a = 0
    · subst ha
      exact ⟨by simp [initial], by simp [initial], by simp [initial]⟩
    · exact ⟨by simp [initial, ha], by simp [initial, ha], by simp [initial, ha]⟩
  marks t c hc := absurd hc (by simp [calls_initial])
  reached t c hc := absurd hc (by simp [calls_initial])

theorem mem_calls_of_call (h : (x.threads t).call = some c) : c ∈ (x.threads t).calls := by
  rw [Thread.calls, h]
  simp

theorem Inv.ready (h : x.Inv clock) (hc : (x.threads t).call = some c) : Ready clock x t c where
  call := hc
  held l := by
    rw [h.readers]
    constructor
    · rintro ⟨c', hc', hrest⟩
      obtain rfl := Option.some_inj.mp (hc.symm.trans hc')
      exact hrest
    · exact fun hrest => ⟨c, hc, hrest⟩
  ok := h.ok t c (mem_calls_of_call hc)
  seen := h.seen t c hc
  sound := h.sound
  marks := h.marks t c (mem_calls_of_call hc)

/-- A change that is no step of a call. -/
theorem Inv.quiet (h : x.Inv clock) (hthreads : x'.threads = x.threads)
    (hreaders : ∀ l, (x'.loggers l).readers = (x.loggers l).readers)
    (hconfig : ∀ t c, (x.threads t).call = some c → c.phase.holds = true →
      x'.config c.logger = x.config c.logger)
    (hroot : ∀ l r, (x'.loggers l).root = some r → r = 0 ∧ l ≠ 0)
    (hcount : x.loggerCount ≤ x'.loggerCount)
    (hbefore : ∀ a, (x.appenders a).Before (x'.appenders a))
    (houtput : ∀ a, (x'.appenders a).output = (x.appenders a).output) : x'.Inv clock where
  readers t l := by
    rw [hreaders, hthreads]
    exact h.readers t l
  seen t c hc hholds := by
    rw [hthreads] at hc
    rw [hconfig t c hc hholds]
    exact h.seen t c hc hholds
  logger t c hc := by
    rw [hthreads] at hc
    exact lt_of_lt_of_le (h.logger t c hc) hcount
  root := hroot
  count := lt_of_lt_of_le h.count hcount
  ok t c hc := h.ok t c (hthreads ▸ hc)
  entries t k a := by
    rw [houtput, hthreads]
    exact h.entries t k a
  sound a := (hbefore a).sound
  marks t c hc a := by
    rw [houtput]
    exact h.marks t c (hthreads ▸ hc) a
  reached t c hc a ha := (h.reached t c (hthreads ▸ hc) a ha).mono (hbefore a)

/-- The calls of a thread when its last one has become `c'`. -/
theorem getElem?_calls {th : Thread} {calls : List Call} (hcalls : calls = th.finished ++ [c'])
    (hcall : th.call = some c) {k : ℕ} (hk : k ≠ th.finished.length) : calls[k]? = th.calls[k]? := by
  rw [hcalls, Thread.calls, hcall]
  rcases Nat.lt_or_gt_of_ne hk with hlt | hgt
  · rw [List.getElem?_append_left hlt, List.getElem?_append_left hlt]
  · rw [List.getElem?_eq_none, List.getElem?_eq_none]
    · simp only [List.length_append, Option.toList, List.length_singleton]
      omega
    · simp only [List.length_append, List.length_singleton]
      omega

theorem Advanced.mem_calls (h : Advanced x x' t c' more) {t' : ThreadId} {c'' : Call}
    (hmem : c'' ∈ (x'.threads t').calls) :
    c'' ∈ (x.threads t').calls ∨ (t' = t ∧ c'' = c') := by
  by_cases ht' : t' = t
  · subst ht'
    rw [h.calls, List.mem_append, List.mem_singleton] at hmem
    exact hmem.imp (fun hmem => List.mem_append_left _ hmem) fun heq => ⟨rfl, heq⟩
  · rw [h.others t' ht'] at hmem
    exact .inl hmem

/-- What is in the outputs is what the calls have written, also behind a step of a call. -/
theorem Inv.entries_advance (h : x.Inv clock) (hc : (x.threads t).call = some c) {c' : Call}
    {more : AppenderId → List Entry} (hadv : Advanced x x' t c' more)
    (hkept : Kept clock x x' t (x.threads t).finished.length c c' more) (t' : ThreadId) (k : ℕ)
    (a : AppenderId) : (x'.appenders a).output.filter (Entry.isOf t' k) =
      ((x'.threads t').calls[k]?).elim [] fun c => c.entries t' k a := by
  rw [hadv.output, List.filter_append, h.entries]
  by_cases hown : t' = t ∧ k = (x.threads t).finished.length
  · -- the call that has made the step
    obtain ⟨rfl, rfl⟩ := hown
    have hold : (x.threads t').calls[(x.threads t').finished.length]? = some c := by
      rw [Thread.calls, hc]
      simp
    have hnew : (x'.threads t').calls[(x.threads t').finished.length]? = some c' := by
      rw [hadv.calls]
      simp
    rw [hold, hnew, List.filter_eq_self.mpr (hkept.isOf a)]
    exact (hkept.entries a).symm
  · have hnone : (more a).filter (Entry.isOf t' k) = [] := by
      rw [List.filter_eq_nil_iff]
      intro e he hof
      have hof' := hkept.isOf a e he
      rw [Entry.isOf, Bool.and_eq_true, beq_iff_eq, beq_iff_eq] at hof hof'
      exact hown ⟨hof.1.symm.trans hof'.1, hof.2.symm.trans hof'.2⟩
    have hsame : (x'.threads t').calls[k]? = (x.threads t').calls[k]? := by
      by_cases ht' : t' = t
      · subst ht'
        exact getElem?_calls hadv.calls hc fun hk => hown ⟨rfl, hk⟩
      · rw [hadv.others t' ht']
    rw [hnone, hsame, List.append_nil]

theorem Inv.advance (h : x.Inv clock) (hc : (x.threads t).call = some c)
    (hstep : x.advance clock t c = some x') : x'.Inv clock := by
  obtain ⟨c', more, hadv, hkept⟩ := (h.ready hc).advance hstep
  have hlen : ∀ a, (x.appenders a).output.length ≤ (x'.appenders a).output.length :=
    fun a => (hkept.before a).output
  refine ⟨fun t' l => ?_, fun t' c'' hc'' hholds => ?_, fun t' c'' hc'' => ?_, fun l r hr => ?_, ?_,
    fun t' c'' hc'' => ?_, h.entries_advance hc hadv hkept, fun a => (hkept.before a).sound,
    fun t' c'' hc'' a => ?_, fun t' c'' hc'' a ha => ?_⟩
  · rw [hadv.readers]
    by_cases ht' : t' = t
    · rw [if_pos ht', ht']
      constructor
      · rintro ⟨hsome, hrest⟩
        obtain ⟨c'', hc''⟩ := Option.isSome_iff_exists.mp hsome
        exact ⟨c'', hc'', hadv.call c'' hc'' ▸ hrest⟩
      · rintro ⟨c'', hc'', hrest⟩
        exact ⟨by rw [hc'']; rfl, hadv.call c'' hc'' ▸ hrest⟩
    · rw [if_neg ht', hadv.others t' ht']
      exact h.readers t' l
  · rw [hadv.config]
    by_cases ht' : t' = t
    · subst ht'
      obtain rfl := hadv.call c'' hc''
      exact hkept.seen hholds
    · rw [hadv.others t' ht'] at hc''
      exact h.seen t' c'' hc'' hholds
  · rw [hadv.count]
    by_cases ht' : t' = t
    · subst ht'
      obtain rfl := hadv.call c'' hc''
      rcases hkept.logger with hlogger | hroot
      · rw [hlogger]
        exact h.logger _ c hc
      · rw [(h.root _ _ hroot).1]
        exact h.count
    · rw [hadv.others t' ht'] at hc''
      exact h.logger t' c'' hc''
  · rw [hadv.root] at hr
    exact h.root l r hr
  · rw [hadv.count]
    exact h.count
  · rcases hadv.mem_calls hc'' with hc'' | ⟨-, rfl⟩
    · exact h.ok t' c'' hc''
    · exact hkept.ok
  · rcases hadv.mem_calls hc'' with hc'' | ⟨-, rfl⟩
    · exact le_trans (h.marks t' c'' hc'' a) (hlen a)
    · rw [hkept.marks]
      exact le_trans (h.marks t c (mem_calls_of_call hc) a) (hlen a)
  · rcases hadv.mem_calls hc'' with hc'' | ⟨-, rfl⟩
    · exact (h.reached t' c'' hc'' a ha).mono (hkept.before a)
    · rw [hkept.operation, hkept.marks]
      rcases hkept.reached a ha with hpassed | hreached
      · exact (h.reached t c (mem_calls_of_call hc) a hpassed).mono (hkept.before a)
      · exact hreached

/-- A change of a logger that leaves its readers and its root alone, and that nobody is inside
of where it is one under the mutex. -/
theorem Inv.updateLogger (h : x.Inv clock) {l : LoggerId} {f : Impl → Impl}
    (hreaders : (f (x.loggers l)).readers = (x.loggers l).readers)
    (hroot : (f (x.loggers l)).root = (x.loggers l).root)
    (hconfig : (x.loggers l).readers = ∅ ∨ (x.updateLogger l f).config l = x.config l) :
    (x.updateLogger l f).Inv clock := by
  refine h.quiet rfl (fun l' => ?_) (fun t c hc hholds => ?_) (fun l' r hr => ?_) le_rfl
    (fun a => (h.sound a).refl) fun _ => rfl
  · rw [Loggers.updateLogger]
    by_cases hl : l' = l
    · subst hl
      simpa using hreaders
    · simp [hl]
  · by_cases hl : c.logger = l
    · rcases hconfig with hempty | hsame
      · -- the thread of this call would be among the readers
        have hmem : t ∈ (x.loggers l).readers := (h.readers t l).mpr ⟨c, hc, hl, hholds⟩
        rw [hempty] at hmem
        exact absurd hmem (Finset.notMem_empty t)
      · rw [hl]
        exact hsame
    · rw [Loggers.updateLogger, config, config]
      simp [hl]
  · rw [Loggers.updateLogger] at hr
    by_cases hl : l' = l
    · subst hl
      simp only [Function.update_self, hroot] at hr
      exact h.root l' r hr
    · simp only [ne_eq, hl, not_false_eq_true, Function.update_of_ne] at hr
      exact h.root l' r hr

theorem Inv.exclusively (h : x.Inv clock) {l : LoggerId} {f : Impl → Impl}
    (hreaders : (f (x.loggers l)).readers = (x.loggers l).readers)
    (hroot : (f (x.loggers l)).root = (x.loggers l).root)
    (hstep : x.exclusively l f = some x') : x'.Inv clock := by
  rw [Loggers.exclusively] at hstep
  split_ifs at hstep with hfree
  obtain rfl := Option.some_inj.mp hstep
  exact h.updateLogger hreaders hroot (.inl hfree.2)

theorem Inv.updateAppender (h : x.Inv clock) {a : AppenderId} {g : Appender → Appender}
    (hstep : (x.appenders a).Before (g (x.appenders a)))
    (houtput : (g (x.appenders a)).output = (x.appenders a).output) :
    (x.updateAppender a g).Inv clock :=
  h.quiet rfl (fun _ => rfl) (fun _ _ _ _ => rfl) h.root le_rfl
    (before_updateAppender h.sound hstep) fun b => by
      rw [output_updateAppender (by rw [houtput, List.append_nil]), ite_self, List.append_nil]

/-- A logger that is new has no readers. -/
theorem Inv.newLogger (h : x.Inv clock) (name : Bytes) {root : Option LoggerId}
    (hroot : ∀ r, root = some r → r = 0) (names : Bytes → Option LoggerId) :
    ({ x.newLogger name root with names } : Loggers).Inv clock := by
  refine h.quiet rfl (fun l => ?_) (fun t c hc hholds => ?_) (fun l r hr => ?_) (Nat.le_succ _)
    (fun a => (h.sound a).refl) fun _ => rfl
  · show (Function.update x.loggers x.loggerCount _ l).readers = _
    by_cases hl : l = x.loggerCount
    · subst hl
      rw [Function.update_self]
      refine (Finset.eq_empty_of_forall_notMem fun t ht => ?_).symm
      obtain ⟨c, hc, hlogger, -⟩ := (h.readers t _).mp ht
      exact absurd hlogger (Nat.ne_of_lt (h.logger t c hc))
    · rw [Function.update_of_ne hl]
  · have hne : c.logger ≠ x.loggerCount := Nat.ne_of_lt (h.logger t c hc)
    show ((Function.update x.loggers x.loggerCount _ c.logger).formatter,
      (Function.update x.loggers x.loggerCount _ c.logger).appenders) = _
    rw [Function.update_of_ne hne]
    rfl
  · change (Function.update x.loggers x.loggerCount _ l).root = some r at hr
    by_cases hl : l = x.loggerCount
    · subst hl
      rw [Function.update_self] at hr
      exact ⟨hroot r hr, Nat.ne_of_gt h.count⟩
    · rw [Function.update_of_ne hl] at hr
      exact h.root l r hr

/-- A call begins. -/
theorem Inv.call (h : x.Inv clock) {t : ThreadId} {operation : Operation} {l : LoggerId}
    (hl : l < x.loggerCount) (hnone : (x.threads t).call = none) :
    (x.setCall t (x.newCall operation l)).Inv clock := by
  have hfree : (x.newCall operation l).phase.holds = false := by cases operation <;> rfl
  have hcalls : (x.threads t).calls = (x.threads t).finished := by
    rw [Thread.calls, hnone]
    simp
  have hthread : ∀ t', t' ≠ t →
      (x.setCall t (x.newCall operation l)).threads t' = x.threads t' := by
    intro t' ht'
    simp [setCall, setThread, ht']
  have hself : ∀ c, ((x.setCall t (x.newCall operation l)).threads t).call = some c →
      x.newCall operation l = c := by
    intro c hc
    simpa [setCall, setThread] using hc
  have hmem : ∀ t' c, c ∈ ((x.setCall t (x.newCall operation l)).threads t').calls →
      c ∈ (x.threads t').calls ∨ x.newCall operation l = c := by
    intro t' c hc
    by_cases ht' : t' = t
    · subst ht'
      rw [calls_setCall, List.mem_append, List.mem_singleton] at hc
      rw [hcalls]
      exact hc.imp id Eq.symm
    · rw [hthread t' ht'] at hc
      exact .inl hc
  refine ⟨fun t' l' => ?_, fun t' c hc hholds => ?_, fun t' c hc => ?_, h.root, h.count,
    fun t' c hc => ?_, fun t' k a => ?_, h.sound, fun t' c hc a => ?_, fun t' c hc a ha => ?_⟩
  · by_cases ht' : t' = t
    · subst ht'
      refine iff_of_false (fun hread => ?_) ?_
      · obtain ⟨c, hc, -⟩ := (h.readers t' l').mp hread
        rw [hnone] at hc
        exact absurd hc (by simp)
      · rintro ⟨c, hc, -, hholds⟩
        rw [← hself c hc, hfree] at hholds
        exact absurd hholds (by simp)
    · rw [hthread t' ht']
      exact h.readers t' l'
  · by_cases ht' : t' = t
    · subst ht'
      rw [← hself c hc, hfree] at hholds
      exact absurd hholds (by simp)
    · rw [hthread t' ht'] at hc
      exact h.seen t' c hc hholds
  · by_cases ht' : t' = t
    · subst ht'
      rw [← hself c hc]
      exact hl
    · rw [hthread t' ht'] at hc
      exact h.logger t' c hc
  · rcases hmem t' c hc with hc | rfl
    · exact h.ok t' c hc
    · rw [Call.Ok]
      cases operation with
      | submit record => exact ⟨rfl, rfl⟩
      | flush => exact ⟨rfl, rfl⟩
      | sync => exact ⟨rfl, rfl⟩
  · rw [show (x.setCall t _).appenders = x.appenders from rfl, h.entries]
    by_cases ht' : t' = t
    · subst ht'
      rw [calls_setCall, hcalls]
      rcases Nat.lt_trichotomy k (x.threads t').finished.length with hlt | rfl | hgt
      · rw [List.getElem?_append_left hlt]
      · simp only [List.getElem?_eq_none (le_refl _), List.getElem?_concat_length]
        exact (Call.entries_eq_nil rfl).symm
      · rw [List.getElem?_eq_none hgt.le, List.getElem?_eq_none]
        simp only [List.length_append, List.length_singleton]
        omega
    · rw [hthread t' ht']
  · rcases hmem t' c hc with hc | rfl
    · exact h.marks t' c hc a
    · exact le_rfl
  · rcases hmem t' c hc with hc | rfl
    · exact h.reached t' c hc a ha
    · exact absurd ha List.not_mem_nil

theorem Inv.step (h : x.Inv clock) {action : Action} (hstep : x.step clock action = some x') :
    x'.Inv clock := by
  cases action with
  | getLogger name =>
    obtain rfl := Option.some_inj.mp hstep
    rw [Loggers.getLogger]
    split_ifs with hname
    · exact h
    · split
      · exact h
      · exact h.newLogger name (fun r hr => (Option.some_inj.mp hr).symm) _
  | newLogger name =>
    rw [Loggers.step] at hstep
    split_ifs at hstep
    obtain rfl := Option.some_inj.mp hstep
    exact h.newLogger name (fun r hr => absurd hr (by simp)) _
  | setLevel l level =>
    rw [Loggers.step] at hstep
    split_ifs at hstep
    obtain rfl := Option.some_inj.mp hstep
    exact h.updateLogger rfl rfl (.inr (by simp [Loggers.updateLogger, config]))
  | setFormatter l formatter => exact h.exclusively rfl rfl hstep
  | addAppender l appender =>
    cases appender with
    | none =>
      obtain rfl := Option.some_inj.mp hstep
      exact h
    | some a => exact h.exclusively rfl rfl hstep
  | removeAppender l appender =>
    cases appender with
    | none => exact h.exclusively rfl rfl hstep
    | some a => exact h.exclusively rfl rfl hstep
  | clearAppenders l => exact h.exclusively rfl rfl hstep
  | setAppenderLevel a level =>
    obtain rfl := Option.some_inj.mp hstep
    have hsound := h.sound a
    exact h.updateAppender ⟨rfl, le_rfl, le_rfl, le_rfl,
      ⟨hsound.flushed_le, hsound.durable_le, hsound.fatal⟩⟩ rfl
  | flushAppender a =>
    obtain rfl := Option.some_inj.mp hstep
    exact h.updateAppender (h.sound a).flush rfl
  | syncAppender a =>
    obtain rfl := Option.some_inj.mp hstep
    refine h.updateAppender (h.sound a).sync ?_
    rw [Appender.syncUnlocked]
    cases (x.appenders a).kind <;> rfl
  | call t operation l =>
    rw [Loggers.step] at hstep
    split_ifs at hstep with hcall
    obtain rfl := Option.some_inj.mp hstep
    exact h.call hcall.1 (Option.isNone_iff_eq_none.mp hcall.2)
  | advance t =>
    obtain ⟨c, hc, hnext⟩ := Option.bind_eq_some_iff.mp hstep
    exact h.advance hc hnext

theorem inv_of_reachable {kinds : AppenderId → AppenderKind}
    (h : (system clock kinds).Reachable x) : x.Inv clock := by
  refine h.invariant (fun s hinit => ?_) fun _ _ _ hinv _ hstep => hinv.step hstep
  obtain rfl : s = initial kinds := hinit
  exact inv_initial clock kinds

/-- A message to the root logger, and a flush. -/
def messageAndFlush : List Action :=
  [.setFormatter 0 messages, .call 0 (.submit twoPastOne) 0] ++ List.replicate 6 (.advance 0) ++
    [.call 0 .flush 0] ++ List.replicate 4 (.advance 0)

def flushed : Loggers :=
  ((system utc fun _ => .file).exec (initial fun _ => .file) messageAndFlush).getD
    (initial fun _ => .file)

theorem reachable_flushed : (system utc fun _ => .file).Reachable flushed := by
  have hsome : ((system utc fun _ => .file).exec (initial fun _ => .file)
      messageAndFlush).isSome = true := by decide +kernel
  obtain ⟨x, hx⟩ := Option.isSome_iff_exists.mp hsome
  have hflushed : flushed = x := by rw [flushed, hx, Option.getD_some]
  rw [hflushed]
  exact System.ReachableWhile.exec (.init rfl) (System.meets_true _ _ _) hx

/-- **Records are delivered.**  However the calls of all threads and the changes of the loggers are
interleaved: what the call that is number `k` of thread `t` has left in the output of an appender
is one entry, with the whole text, for each turn of the appender whose level let the record pass;
while the call has the lock its logger keeps the formatter and the appenders that it had when the
lock was taken, and the turns so far are the first of these, in their order; when the call is over
each has had its turn, or there was no appender; and the text is what that formatter makes of the
record. -/
theorem submit_delivers (clock : Clock) (kinds : AppenderId → AppenderKind) (x : Loggers)
    (h : (system clock kinds).Reachable x) (t : ThreadId) (k : ℕ) (c : Call)
    (hc : (x.threads t).calls[k]? = some c) (record : LogRecordView)
    (hoperation : c.operation = .submit record) :
    (∀ a, (x.appenders a).output.filter (Entry.isOf t k) =
      List.replicate (c.written.count a) ⟨t, k, record.level, c.text⟩) ∧
    ((x.threads t).call = some c → c.phase.holds = true →
      c.seen = some (x.config c.logger) ∧ c.passed <+: (x.config c.logger).2) ∧
    (c.phase = .done → c.passed = c.seen.elim [] Prod.snd) ∧
    (c.passed ≠ [] → ∃ f appenders cache, c.seen = some (f, appenders) ∧
      c.text = (formattedRecord clock f cache record).2.view) := by
  have hinv := inv_of_reachable h
  have hok := hinv.ok t c (List.mem_of_getElem? hc)
  refine ⟨fun a => ?_, fun hcall hholds => ?_, hok.done, fun hne => ?_⟩
  · rw [hinv.entries, hc]
    exact Call.entries_submit hoperation
  · have hseen := hinv.seen t c hcall hholds
    exact ⟨hseen, hok.prefix hseen⟩
  · obtain ⟨f, appenders, hseen, hformatted⟩ := hok.formatted hne
    obtain ⟨cache, htext⟩ := hformatted record hoperation
    exact ⟨f, appenders, cache, hseen, htext⟩

theorem submit_delivers_message :
    (flushed.appenders 0).output.filter (Entry.isOf 0 0) =
      [⟨0, 0, .info, ascii "message"⟩] := by
  have hcall : ((flushed.threads 0).calls[0]?).map
      (fun c => (c.operation, c.written.count 0, c.text)) =
        some (.submit twoPastOne, 1, ascii "message") := rfl
  obtain ⟨c, hc, hfields⟩ := Option.map_eq_some_iff.mp hcall
  obtain ⟨hoperation, hrest⟩ := Prod.mk.inj hfields
  obtain ⟨hcount, htext⟩ := Prod.mk.inj hrest
  have h := (submit_delivers utc (fun _ => .file) flushed reachable_flushed 0 0 c hc twoPastOne
    hoperation).1 0
  rw [hcount, htext] at h
  exact h

/-- **A flush is a barrier.**  In every state an appender has given each fatal record of its output
to the system.  When a flush or a sync is over, every appender that its logger had when it took the
lock has given to the system at least what its output had when the call began; and after a sync
that part of a file is on the disk. -/
theorem flush_barrier (clock : Clock) (kinds : AppenderId → AppenderKind) (x : Loggers)
    (h : (system clock kinds).Reachable x) :
    (∀ a, (x.appenders a).flushed ≤ (x.appenders a).output.length ∧
      ∀ e ∈ (x.appenders a).output.drop (x.appenders a).flushed, e.level ≠ .fatal) ∧
    ∀ t, ∀ c ∈ (x.threads t).calls, c.phase = .done → ∀ a ∈ c.seen.elim [] Prod.snd,
      (c.operation = .flush ∨ c.operation = .sync → c.marks a ≤ (x.appenders a).flushed) ∧
      (c.operation = .sync → (x.appenders a).kind = .file →
        c.marks a ≤ (x.appenders a).durable) := by
  have hinv := inv_of_reachable h
  refine ⟨fun a => ⟨(hinv.sound a).flushed_le, (hinv.sound a).fatal⟩,
    fun t c hc hdone a ha => ?_⟩
  rw [← (hinv.ok t c hc).done hdone] at ha
  have hreached := hinv.reached t c hc a ha
  cases hoperation : c.operation with
  | submit record => simp
  | flush =>
    rw [hoperation] at hreached
    exact ⟨fun _ => hreached, fun hsync => absurd hsync (by simp)⟩
  | sync =>
    rw [hoperation] at hreached
    exact ⟨fun _ => hreached.1, fun _ => hreached.2⟩

theorem flush_barrier_message : 1 ≤ (flushed.appenders 0).flushed := by
  have hcall : ((flushed.threads 0).calls[1]?).map
      (fun c => (c.operation, c.phase, c.marks 0, c.seen.elim [] Prod.snd)) =
        some (.flush, .done, 1, [0]) := rfl
  obtain ⟨c, hc, hfields⟩ := Option.map_eq_some_iff.mp hcall
  obtain ⟨hoperation, hrest⟩ := Prod.mk.inj hfields
  obtain ⟨hdone, hrest⟩ := Prod.mk.inj hrest
  obtain ⟨hmark, hseen⟩ := Prod.mk.inj hrest
  have hmem : 0 ∈ c.seen.elim [] Prod.snd := by
    rw [hseen]
    exact List.mem_singleton_self 0
  have h := ((flush_barrier utc (fun _ => .file) flushed reachable_flushed).2 0 c
    (List.mem_of_getElem? hc) hdone 0 hmem).1 (.inl hoperation)
  rwa [hmark] at h

end Loggers

end Logger
