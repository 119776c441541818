/-
Switching between fibers.

`Fiber::resume`, `Fiber::yield_to` and the end of `Fiber::run` are followed from one call
of the program to the next, as what they are: writes to the fiber objects and to the
thread's `t_cur` and `t_cur_holder`, and jumps.  `jump_fcontext` leaves a suspension point
on the stack that it comes from, goes to the one that it is given, and hands over the new
one.  A point says where on which stack it is; it can be jumped to once.  What lies at it
goes on by itself, so that a wrong handle leads to the wrong place.

The main program has no fiber object until `GetThis` makes one.  Callbacks, and the main
program, are named by numbers; an empty callback is one that throws at once.

* `Machine.Asserted` — what the functions assert of their caller;
* `Machine.step` — one call of the program, which fails when an assertion does, or when a
  jump leads to nothing or to the `abort` after the end of a fiber.
-/
import Droplet.Scheduler.Fiber
import Droplet.Lib.Coroutine

open Transition Transition.System

namespace Fibers

/-- The two ways to yield. -/
inductive Yield
  | hold
  | ready
  deriving DecidableEq

/-- The state that `yield_to_hold` or `yield_to_ready` passes to `yield_to`. -/
def Yield.state : Yield → Scheduler.Fiber.State
  | .hold => .hold
  | .ready => .ready

/-- The stack of the thread, with its main fiber, or that of a fiber. -/
inductive Owner
  | main
  | fiber (f : ℕ)
  deriving DecidableEq

abbrev Place := Coroutine.Place ℕ

/-- A call of the program: `Create`, `resume`, `yield_to_hold` or `yield_to_ready`, the
return or the exception that ends a callback, and `reset`. -/
abbrev Call := Coroutine.Op ℕ Yield

/-- The code after a suspension point: `Fiber::entry`, the rest of `resume` of a fiber, with
its local `prev`, the rest of `yield_to`, with its local `curr`, or the `abort` after the
last jump of `run`. -/
inductive Frame
  | entry
  | resume (target : ℕ) (prev : Owner)
  | yieldTo (curr : ℕ)
  | abort
  deriving DecidableEq

/-- What `jump_fcontext` leaves on a stack.  `place` is that of the program there, once the
rest of the frame is done. -/
structure Point where
  stack : Owner
  frame : Frame
  place : Place
  deriving DecidableEq

/-- A fiber object.  Handles of suspension points are numbers. -/
structure FiberObject where
  state : Scheduler.Fiber.State
  ctx : ℕ
  backCtx : Option ℕ
  cb : Option ℕ
  exception : Bool
  deriving DecidableEq

/-- What the end of `Fiber::run` writes, after the callback has returned or thrown. -/
def FiberObject.finish (object : FiberObject) (threw : Bool) : FiberObject :=
  let object := if threw then { object with exception := true, state := .except } else object
  let object := { object with cb := none }
  if object.state = .exec then { object with state := .term } else object

/-- A thread.  `running` is the stack that it executes on, `place` where the program is on
it, and `points` what `jump_fcontext` and `make_fcontext` have left in memory. -/
structure Machine where
  running : Owner
  place : Place
  tCur : Option Owner
  tCurHolder : Option Owner
  mainState : Option Scheduler.Fiber.State
  fiber : ℕ → FiberObject
  fiberCount : ℕ
  points : ℕ → Option Point
  pointCount : ℕ

namespace Machine

/-- A thread that has not used any fiber. -/
def start (program : ℕ) : Machine where
  running := .main
  place := .start program
  tCur := none
  tCurHolder := none
  mainState := none
  fiber := fun _ => ⟨.term, 0, none, none, false⟩
  fiberCount := 0
  points := fun _ => none
  pointCount := 0

def setFiber (m : Machine) (f : ℕ) (object : FiberObject) : Machine :=
  { m with fiber := Function.update m.fiber f object }

/-- `Fiber::SetThis`. -/
def setThis (m : Machine) (owner : Owner) : Machine :=
  { m with tCurHolder := some owner, tCur := some owner }

/-- `Fiber::GetThis`: the main fiber is made when there is no current one. -/
def getThis (m : Machine) : Option Owner × Machine :=
  match m.tCur with
  | none =>
    let m := { m with mainState := some .exec, tCur := some .main, tCurHolder := some .main }
    (m.tCurHolder, m)
  | some _ => (m.tCurHolder, m)

/-- The state of a fiber. -/
def stateOf (m : Machine) : Owner → Option Scheduler.Fiber.State
  | .main => m.mainState
  | .fiber f => some (m.fiber f).state

/-- The call is done and control stays. -/
def advance (m : Machine) : Machine := { m with place := m.place.next }

/-- `make_fcontext` on the stack of a fiber: whatever was on it is gone.  The new point has
the number `pointCount`. -/
def makeFcontext (m : Machine) (f : ℕ) : Machine :=
  { m with
    points := Function.update (fun p => (m.points p).filter (·.stack ≠ .fiber f)) m.pointCount
      (some ⟨.fiber f, .entry, .start 0⟩)
    pointCount := m.pointCount + 1 }

/-- The points after a jump to one of them from the given frame. -/
def leftPoints (m : Machine) (point : ℕ) (frame : Frame) : ℕ → Option Point :=
  Function.update (Function.update m.points point none) m.pointCount
    (some ⟨m.running, frame, m.place.next⟩)

/-- The machine after a jump to a point, from the given frame. -/
def jumped (m : Machine) (point : ℕ) (frame : Frame) (target : Point) : Machine :=
  { m with
    running := target.stack
    place := target.place
    points := m.leftPoints point frame
    pointCount := m.pointCount + 1 }

/-- `jump_fcontext`: the machine there, with the code that goes on and the handle of the
point left behind. -/
def jumpFcontext (m : Machine) (point : ℕ) (frame : Frame) : Option (Machine × Frame × ℕ) :=
  (m.points point).map fun target => (m.jumped point frame target, target.frame, m.pointCount)

/-- The beginning of `Fiber::run`: the callback is called. -/
def run (m : Machine) (self : ℕ) : Option Machine :=
  (m.fiber self).cb.map fun cb =>
    { m.setFiber self { m.fiber self with state := .exec } with place := .start cb }

/-- `Fiber::entry`; `fctx` and `data` come with the jump. -/
def entry (m : Machine) (fctx data : ℕ) : Option Machine :=
  (m.setFiber data { m.fiber data with backCtx := some fctx }).run data

/-- The code that a jump leads to goes on, up to the next call of the program. -/
def land (m : Machine) (fctx data : ℕ) : Frame → Option Machine
  | .entry => m.entry fctx data
  | .resume target prev =>
    some ((m.setFiber target { m.fiber target with ctx := fctx }).setThis prev)
  | .yieldTo curr => some (m.setFiber curr { m.fiber curr with backCtx := some fctx })
  | .abort => none

/-- A jump that passes `data`, and what it leads to. -/
def switch (m : Machine) (point : ℕ) (frame : Frame) (data : ℕ) : Option Machine :=
  (m.jumpFcontext point frame).bind fun (m, target, fctx) => m.land fctx data target

/-- `Fiber::Create`. -/
def create (m : Machine) (cb : ℕ) : Machine :=
  { (m.setFiber m.fiberCount ⟨.init, m.pointCount, none, some cb, false⟩).makeFcontext
      m.fiberCount with
    fiberCount := m.fiberCount + 1 }.advance

/-- What `Fiber::reset` does: a new entry point on the old stack. -/
def restarted (m : Machine) (f cb : ℕ) : Machine :=
  ((m.setFiber f { m.fiber f with
    cb := some cb, exception := false, ctx := m.pointCount, state := .init }).makeFcontext f).advance

/-- `Fiber::reset`. -/
def reset (m : Machine) (f cb : ℕ) : Option Machine :=
  let object := m.fiber f
  if object.state = .init ∨ object.state = .term ∨ object.state = .except then
    some (m.restarted f cb)
  else none

/-- `Fiber::resume`. -/
def resume (m : Machine) (f : ℕ) : Option Machine :=
  let (prev, m) := m.getThis
  prev.bind fun prev =>
    let object := m.fiber f
    if prev ≠ .fiber f ∧ object.state ≠ .exec ∧ object.state ≠ .term ∧ object.state ≠ .except then
      ((m.setThis (.fiber f)).setFiber f { object with state := .exec }).switch object.ctx
        (.resume f prev) f
    else none

/-- `Fiber::yield_to`. -/
def yieldTo (m : Machine) (state : Scheduler.Fiber.State) : Option Machine :=
  let (curr, m) := m.getThis
  match curr with
  | some (.fiber c) =>
    let object := m.fiber c
    if object.state = .exec then
      object.backCtx.bind fun point =>
        (m.setFiber c { object with state := state }).switch point (.yieldTo c) c
    else none
  -- the main fiber has no stack of its own
  | some .main => none
  | none => none

/-- The end of `Fiber::run`, after the callback of `self` has returned or thrown. -/
def finish (m : Machine) (self : ℕ) (threw : Bool) : Option Machine :=
  let object := (m.fiber self).finish threw
  object.backCtx.bind fun point => (m.setFiber self object).switch point .abort self

/-- One call of the program, on fibers that exist. -/
def step (m : Machine) : Call → Option Machine
  | .create cb => some (m.create cb)
  | .resume f => if f < m.fiberCount then m.resume f else none
  | .yield kind => m.yieldTo kind.state
  | .finish threw =>
    match m.running with
    | .fiber self => m.finish self threw
    -- the main program is not called from `run`
    | .main => none
  | .reset f cb => if f < m.fiberCount then m.reset f cb else none

/-- All programs of one thread. -/
def system (program : ℕ) : System Machine Call where
  init m := m = start program
  step := step

/-- What the functions assert, on fibers that exist; only a callback can end. -/
def Asserted (m : Machine) : Call → Prop
  | .create _ => True
  | .resume f =>
    f < m.fiberCount ∧ m.getThis.1 ≠ some (.fiber f) ∧ (m.fiber f).state ≠ .exec ∧
      (m.fiber f).state ≠ .term ∧ (m.fiber f).state ≠ .except
  | .yield _ => ∃ c, m.getThis.1 = some (.fiber c) ∧ (m.fiber c).state = .exec
  | .finish _ => m.running ≠ .main
  | .reset f _ =>
    f < m.fiberCount ∧
      ((m.fiber f).state = .init ∨ (m.fiber f).state = .term ∨ (m.fiber f).state = .except)

section fields

variable (m : Machine)

@[simp] theorem setFiber_fiber (f : ℕ) (object : FiberObject) :
    (m.setFiber f object).fiber = Function.update m.fiber f object := rfl
@[simp] theorem setFiber_points (f : ℕ) (object : FiberObject) :
    (m.setFiber f object).points = m.points := rfl
@[simp] theorem setThis_points (owner : Owner) : (m.setThis owner).points = m.points := rfl
@[simp] theorem setThis_fiber (owner : Owner) : (m.setThis owner).fiber = m.fiber := rfl
@[simp] theorem jumped_fiber (point : ℕ) (frame : Frame) (target : Point) :
    (m.jumped point frame target).fiber = m.fiber := rfl

end fields

end Machine

end Fibers
