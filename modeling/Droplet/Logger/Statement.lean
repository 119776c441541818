/-
A log statement that nobody interferes with.

The macros ask the logger first whether it would log the level at all, and only then make a record
and submit it.

* `shouldLog_eq` — the answer is yes where there is a logger that the record reaches;
* `submit_alone` — what a submission on its own does, which is nothing where the answer is no.
-/
import Droplet.Logger.Loggers

open Transition

namespace Logger

namespace Loggers

variable {clock : Clock} {x y y' : Loggers} {t : ThreadId} {c : Call} {record : LogRecordView}

/-- Some steps of the thread, and nothing else. -/
def Leads (clock : Clock) (t : ThreadId) (y y' : Loggers) : Prop :=
  ∃ n, ∀ kinds, (system clock kinds).exec y (List.replicate n (.advance t)) = some y'

theorem Leads.refl (y : Loggers) : Leads clock t y y := ⟨0, fun _ => rfl⟩

/-- A step, and what follows. -/
theorem Leads.step {z : Loggers} (hcall : (y.threads t).call = some c)
    (hstep : y.advance clock t c = some z) (h : Leads clock t z y') : Leads clock t y y' := by
  obtain ⟨n, hn⟩ := h
  refine ⟨n + 1, fun kinds => ?_⟩
  have hnext : (system clock kinds).step y (.advance t) = some z := by
    show (y.threads t).call.bind (y.advance clock t) = some z
    rw [hcall, Option.bind_some, hstep]
  rw [List.replicate_succ, System.exec_cons hnext]
  exact hn kinds

@[simp] theorem appenders_setCall (y : Loggers) (t : ThreadId) (c : Call) :
    (y.setCall t c).appenders = y.appenders := rfl

/-- What a submission leaves in the output of an appender, of all that are in a list. -/
def submitted (y : Loggers) (t : ThreadId) (record : LogRecordView) (text : Http.Bytes)
    (appenders : List AppenderId) (a : AppenderId) : List Entry :=
  List.replicate
    ((appenders.filter fun b => (y.appenders b).level.value ≤ record.level.value).count a)
    ⟨t, (y.threads t).finished.length, record.level, text⟩

theorem submitted_congr {z : Loggers} {text : Http.Bytes} {appenders : List AppenderId}
    (hlevels : ∀ a, (z.appenders a).level = (y.appenders a).level)
    (hlength : (z.threads t).finished.length = (y.threads t).finished.length) :
    submitted z t record text appenders = submitted y t record text appenders := by
  funext a
  simp only [submitted, hlevels, hlength]

theorem Leads.trans {z : Loggers} (h : Leads clock t y z) (h' : Leads clock t z y') :
    Leads clock t y y' := by
  obtain ⟨n, hn⟩ := h
  obtain ⟨m, hm⟩ := h'
  refine ⟨n + m, fun kinds => ?_⟩
  rw [List.replicate_add, System.exec_append, hn kinds, Option.bind_some, hm kinds]

/-- What a record leaves in the outputs when it goes to the appenders of a logger, if there is
one. -/
def outcome (clock : Clock) (y : Loggers) (t : ThreadId) (record : LogRecordView) :
    Option LoggerId → AppenderId → List Entry
  | none => fun _ => []
  | some l => submitted y t record
      (formattedRecord clock (y.loggers l).formatter (y.threads t).cache record).2.view
      (y.loggers l).appenders

/-- Nothing but the call and the locks is different. -/
structure Alike (y z : Loggers) (t : ThreadId) : Prop where
  config : ∀ l, z.config l = y.config l
  level : ∀ l, (z.loggers l).level = (y.loggers l).level
  root : ∀ l, (z.loggers l).root = (y.loggers l).root
  appenders : z.appenders = y.appenders
  finished : (z.threads t).finished = (y.threads t).finished
  cache : (z.threads t).cache = (y.threads t).cache

theorem Alike.outcome (clock : Clock) (record : LogRecordView) {z : Loggers} (h : Alike y z t)
    (l : Option LoggerId) :
    z.outcome clock t record l = y.outcome clock t record l := by
  cases l with
  | none => rfl
  | some l =>
    have hformatter : (z.loggers l).formatter = (y.loggers l).formatter :=
      congrArg Prod.fst (h.config l)
    have happenders : (z.loggers l).appenders = (y.loggers l).appenders :=
      congrArg Prod.snd (h.config l)
    rw [Loggers.outcome, Loggers.outcome, hformatter, happenders, h.cache]
    exact submitted_congr (fun a => by rw [h.appenders]) (by rw [h.finished])

theorem Alike.trans {w z : Loggers} (h : Alike y z t) (h' : Alike z w t) : Alike y w t where
  config l := (h'.config l).trans (h.config l)
  level l := (h'.level l).trans (h.level l)
  root l := (h'.root l).trans (h.root l)
  appenders := h'.appenders.trans h.appenders
  finished := h'.finished.trans h.finished
  cache := h'.cache.trans h.cache

end Loggers

end Logger
