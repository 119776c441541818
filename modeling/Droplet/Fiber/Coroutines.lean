/-
Fibers are asymmetric coroutines.

`ctx_` and `back_ctx_` are handles that a jump uses up, and `t_cur` is written apart from
the jumps.  What keeps them in order is that every stack that does not run carries one
point that matters, and that somebody holds its handle: `ctx_` of a fiber that waits, and
`back_ctx_` of the fiber that was resumed from there.

* `Linked` — each handle leads to the point that the stack of coroutines says;
* `linked_of_switch`, in its two forms — a jump uses up one handle and makes another;
* `refines_coroutines` — the program runs as on a stack of coroutines, and no jump goes
  astray while the assertions hold.
-/
import Droplet.Fiber.Switch

open Transition Transition.System

namespace Fibers

/-- Fibers as coroutines. -/
abbrev Stack := Coroutine.Stack ℕ Yield

/-- What a coroutine does, as the state of a fiber. -/
def stateFor : Coroutine.Status ℕ Yield → Scheduler.Fiber.State
  | .fresh _ => .init
  | .suspended kind _ => kind.state
  | .active => .exec
  | .ended threw => if threw then .except else .term

/-- The owner of the stack on top of a chain. -/
def top : List (ℕ × Place) → Owner
  | [] => .main
  | (f, _) :: _ => .fiber f

/-- The thread is at the same point of the program as the stack of coroutines: the one that
runs is on the stack of the thread and is what `GetThis` returns, the program is at the same
place, and each fiber is in the state that says what the coroutine does.  In `EXEC` are the
fibers of the chain, and the main fiber. -/
structure Machine.Agrees (m : Machine) (s : Stack) : Prop where
  running : m.running = top s.chain
  current : m.getThis.1 = some (top s.chain)
  place : m.place = s.place
  count : m.fiberCount = s.count
  state : ∀ f < s.count, (m.fiber f).state = stateFor (s.status f)
  exec : ∀ f < s.count, (m.fiber f).state = .exec ↔ f ∈ s.actives
  main : m.getThis.2.stateOf .main = some .exec

/-! ### The owners below -/

/-- The stacks below the top of a chain, from which the fibers of the chain were resumed. -/
def below : List (ℕ × Place) → List Owner
  | [] => []
  | _ :: rest => top rest :: below rest

theorem mem_below {chain : List (ℕ × Place)} {owner : Owner} (hmem : owner ∈ below chain) :
    owner = .main ∨ ∃ f ∈ (chain.map Prod.fst).tail, owner = .fiber f := by
  induction chain with
  | nil => exact absurd hmem List.not_mem_nil
  | cons link rest ih =>
    rcases List.mem_cons.mp hmem with rfl | hmem
    · cases rest with
      | nil => exact .inl rfl
      | cons link' rest' => exact .inr ⟨link'.1, List.mem_cons_self, rfl⟩
    · refine (ih hmem).imp_right fun ⟨f, hf, heq⟩ => ⟨f, ?_, heq⟩
      exact List.mem_of_mem_tail hf

/-- A fiber outside a chain is not below its top. -/
theorem fiber_not_mem_below {chain : List (ℕ × Place)} {f : ℕ}
    (hnot : f ∉ chain.map Prod.fst) : .fiber f ∉ below chain := by
  intro hmem
  rcases mem_below hmem with heq | ⟨f', hf', heq⟩
  · exact absurd heq (by simp)
  · obtain rfl := Owner.fiber.inj heq
    exact hnot (List.mem_of_mem_tail hf')

/-- A fiber on top of a chain is one of the chain. -/
theorem mem_of_top_eq {chain : List (ℕ × Place)} {f : ℕ} (htop : top chain = .fiber f) :
    f ∈ chain.map Prod.fst := by
  cases chain with
  | nil => exact absurd htop (by simp [top])
  | cons link rest =>
    obtain rfl := Owner.fiber.inj htop
    exact List.mem_cons_self

/-- The top of a chain is not below itself. -/
theorem top_not_mem_below {chain : List (ℕ × Place)} (hnodup : (chain.map Prod.fst).Nodup) :
    top chain ∉ below chain := by
  cases chain with
  | nil => exact List.not_mem_nil
  | cons link rest =>
    intro hmem
    rcases mem_below hmem with heq | ⟨f, hf, heq⟩
    · exact absurd heq (by simp [top])
    · obtain rfl := Owner.fiber.inj heq
      exact (List.nodup_cons.mp hnodup).1 hf

/-! ### Handles and points -/

namespace Machine

variable {m m' : Machine} {s s' : Stack} {f point : ℕ} {frame : Frame} {target : Point}

/-- A fiber that waits to be resumed has the handle of its point. -/
def Link (m : Machine) (f : ℕ) : Coroutine.Status ℕ Yield → Prop
  | .fresh body =>
    (m.fiber f).cb = some body ∧ ∃ place, m.points (m.fiber f).ctx = some ⟨.fiber f, .entry, place⟩
  | .suspended _ place => m.points (m.fiber f).ctx = some ⟨.fiber f, .yieldTo f, place⟩
  | _ => True

/-- A fiber of a chain has the handle of the point from which it was resumed. -/
def BackLinks (m : Machine) : List (ℕ × Place) → Prop
  | [] => True
  | (f, place) :: rest =>
    (∃ point, (m.fiber f).backCtx = some point ∧
      m.points point = some ⟨top rest, .resume f (top rest), place⟩) ∧ m.BackLinks rest

/-- `t_cur` and `t_cur_holder` name the owner of the stack that runs, or there is no fiber
yet. -/
def Current (m : Machine) : Prop :=
  (m.tCur = some m.running ∧ m.tCurHolder = some m.running ∧ m.mainState = some .exec) ∨
    (m.tCur = none ∧ m.running = .main)

/-- The thread and the stack of coroutines, handles included. -/
structure Linked (m : Machine) (s : Stack) : Prop where
  ok : s.Ok
  count : m.fiberCount = s.count
  running : m.running = top s.chain
  place : m.place = s.place
  current : m.Current
  state : ∀ f < s.count, (m.fiber f).state = stateFor (s.status f)
  link : ∀ f < s.count, m.Link f (s.status f)
  back : m.BackLinks s.chain
  unused : ∀ point, m.pointCount ≤ point → m.points point = none

theorem linked_start (program : ℕ) : (start program).Linked (Coroutine.Stack.start program) where
  ok := Coroutine.Stack.ok_start program
  count := rfl
  running := rfl
  place := rfl
  current := .inr ⟨rfl, rfl⟩
  state := fun f hf => absurd hf (Nat.not_lt_zero f)
  link := fun f hf => absurd hf (Nat.not_lt_zero f)
  back := trivial
  unused := fun _ _ => rfl

/-- A link outlasts what happens on other stacks. -/
theorem Link.mono {status : Coroutine.Status ℕ Yield} (h : m.Link f status)
    (hfiber : m'.fiber f = m.fiber f)
    (hpoints : ∀ p pt, m.points p = some pt → pt.stack = .fiber f → m'.points p = some pt) :
    m'.Link f status := by
  cases status with
  | fresh body =>
    obtain ⟨hcb, place, hpoint⟩ := h
    rw [Link, hfiber]
    exact ⟨hcb, place, hpoints _ _ hpoint rfl⟩
  | suspended kind place =>
    rw [Link, hfiber]
    exact hpoints _ _ h rfl
  | active => exact trivial
  | ended threw => exact trivial

/-- The links of a chain outlast what happens on other stacks than those below. -/
theorem BackLinks.mono {chain : List (ℕ × Place)} (h : m.BackLinks chain)
    (hfiber : ∀ f ∈ chain.map Prod.fst, (m'.fiber f).backCtx = (m.fiber f).backCtx)
    (hpoints : ∀ p pt, m.points p = some pt → pt.stack ∈ below chain → m'.points p = some pt) :
    m'.BackLinks chain := by
  induction chain with
  | nil => exact trivial
  | cons link rest ih =>
    obtain ⟨⟨point, hback, hpoint⟩, hrest⟩ := h
    refine ⟨⟨point, ?_, hpoints _ _ hpoint List.mem_cons_self⟩, ih hrest ?_ ?_⟩
    · rw [hfiber link.1 List.mem_cons_self, hback]
    · exact fun f hf => hfiber f (List.mem_cons_of_mem _ hf)
    · exact fun p pt hp hmem => hpoints p pt hp (List.mem_cons_of_mem _ hmem)

/-- `GetThis` returns the owner of the stack that runs, and writes to nothing else. -/
theorem Linked.getThis (h : m.Linked s) :
    ∃ m', m.getThis = (some m.running, m') ∧ m'.Linked s ∧ m'.mainState = some .exec ∧
      m'.running = m.running ∧ m'.fiber = m.fiber ∧ m'.fiberCount = m.fiberCount := by
  rcases h.current with ⟨hcur, hholder, hmain⟩ | ⟨hcur, hrunning⟩
  · refine ⟨m, ?_, h, hmain, rfl, rfl, rfl⟩
    rw [Machine.getThis, hcur, hholder]
  · let m' : Machine :=
      { m with mainState := some .exec, tCur := some .main, tCurHolder := some .main }
    have hthis : m.getThis = (some m.running, m') := by
      simp only [Machine.getThis, hcur, hrunning, m']
    have hback : m'.BackLinks s.chain := h.back.mono (fun _ _ => rfl) fun _ _ hp _ => hp
    have hcurrent : m'.Current := .inl ⟨congrArg some hrunning.symm, congrArg some hrunning.symm, rfl⟩
    refine ⟨m', hthis, ?_, rfl, rfl, rfl, rfl⟩
    exact { h with
      current := hcurrent
      link := fun f hf => (h.link f hf).mono rfl fun _ _ hp _ => hp
      back := hback }

/-- The points on other stacks than that which is jumped to are still there. -/
theorem Linked.leftPoints (h : m.Linked s) (hpoint : m.points point = some target) {p : ℕ}
    {pt : Point} (hp : m.points p = some pt) (hstack : pt.stack ≠ target.stack) :
    m.leftPoints point frame p = some pt := by
  have hne : p ≠ point := by
    rintro rfl
    exact hstack (congrArg Point.stack (Option.some_inj.mp (hp.symm.trans hpoint)))
  have hlt : p ≠ m.pointCount := by
    rintro rfl
    exact absurd ((h.unused _ (Nat.le_refl _)).symm.trans hp) (by simp)
  rw [Machine.leftPoints, Function.update_of_ne hlt, Function.update_of_ne hne, hp]

/-- A jump leaves its point under the next number. -/
theorem leftPoints_self (m : Machine) (point : ℕ) (frame : Frame) :
    m.leftPoints point frame m.pointCount = some ⟨m.running, frame, m.place.next⟩ :=
  Function.update_self ..

theorem Linked.leftPoints_unused (h : m.Linked s) {p : ℕ} (hp : m.pointCount + 1 ≤ p) :
    m.leftPoints point frame p = none := by
  have hlt : p ≠ m.pointCount := by omega
  rw [Machine.leftPoints, Function.update_of_ne hlt]
  by_cases hne : p = point
  · rw [hne, Function.update_self]
  · rw [Function.update_of_ne hne]
    exact h.unused p (by omega)

/-- **A jump into a fiber**, from the stack that runs: the handle that was used up is
replaced by that of the resumer. -/
theorem linked_enter (h : m.Linked s) {place : Place} (hmade : f < s.count)
    (hwaits : s.status f ≠ .active) (hpoint : m.points point = some target)
    (htarget : target.stack = .fiber f) (hrunning : m'.running = .fiber f)
    (hplace : m'.place = place) (hcur : m'.tCur = some (.fiber f))
    (hholder : m'.tCurHolder = some (.fiber f)) (hmain : m'.mainState = some .exec)
    (hcount : m'.fiberCount = m.fiberCount) (hother : ∀ g, g ≠ f → m'.fiber g = m.fiber g)
    (hstate : (m'.fiber f).state = .exec) (hback : (m'.fiber f).backCtx = some m.pointCount)
    (hpoints : m'.points = m.leftPoints point (.resume f m.running))
    (hpointCount : m'.pointCount = m.pointCount + 1) : m'.Linked (s.enter f place) := by
  have hnot : f ∉ s.actives := fun hmem => hwaits ((h.ok.active f).mpr hmem)
  have hkeeps : ∀ p pt, m.points p = some pt → pt.stack ≠ .fiber f → m'.points p = some pt := by
    intro p pt hp hstack
    rw [hpoints]
    exact h.leftPoints hpoint hp (htarget ▸ hstack)
  constructor
  · exact h.ok.enter hmade hwaits place
  · exact hcount.trans h.count
  · exact hrunning
  · exact hplace
  · exact .inl ⟨hrunning ▸ hcur, hrunning ▸ hholder, hmain⟩
  · intro g hg
    show (m'.fiber g).state = stateFor (Function.update s.status f .active g)
    by_cases heq : g = f
    · subst heq
      rw [Function.update_self, hstate, stateFor]
    · rw [Function.update_of_ne heq, hother g heq]
      exact h.state g hg
  · intro g hg
    show m'.Link g (Function.update s.status f .active g)
    by_cases heq : g = f
    · subst heq
      rw [Function.update_self]
      exact trivial
    · rw [Function.update_of_ne heq]
      refine (h.link g hg).mono (hother g heq) fun p pt hp hstack => hkeeps p pt hp ?_
      rw [hstack]
      exact fun hsame => heq (Owner.fiber.inj hsame)
  · refine ⟨⟨m.pointCount, hback, ?_⟩, h.back.mono ?_ ?_⟩
    · -- the point that the resumer has left
      rw [hpoints, leftPoints_self, h.running, h.place]
    · intro g hg
      rw [hother g fun heq => hnot (heq ▸ hg)]
    · intro p pt hp hmem
      exact hkeeps p pt hp fun hstack => fiber_not_mem_below hnot (hstack ▸ hmem)
  · intro p hp
    rw [hpoints]
    exact h.leftPoints_unused (hpointCount ▸ hp)

/-- **A jump back to the resumer**: the handle that was used up is replaced by that of the
fiber that leaves. -/
theorem linked_leave (h : m.Linked s) {place : Place} {rest : List (ℕ × Place)}
    {status : Coroutine.Status ℕ Yield} (hchain : s.chain = (f, place) :: rest)
    (hpoint : m.points point = some target) (htarget : target.stack = top rest)
    (hafter : status ≠ .active) (hrunning : m'.running = top rest) (hplace : m'.place = place)
    (hcur : m'.tCur = some (top rest)) (hholder : m'.tCurHolder = some (top rest))
    (hmain : m'.mainState = some .exec) (hcount : m'.fiberCount = m.fiberCount)
    (hother : ∀ g, g ≠ f → m'.fiber g = m.fiber g) (hstate : (m'.fiber f).state = stateFor status)
    (hlink : m'.Link f status) (hpoints : m'.points = m.leftPoints point frame)
    (hpointCount : m'.pointCount = m.pointCount + 1) :
    ∃ s', s.leave status = some s' ∧ m'.Linked s' := by
  have hactives : s.actives = f :: rest.map Prod.fst := by
    rw [Coroutine.Stack.actives, hchain, List.map_cons]
  obtain ⟨hnot, hnodup⟩ := List.nodup_cons.mp (hactives ▸ h.ok.nodup)
  have hkeeps : ∀ p pt, m.points p = some pt → pt.stack ≠ top rest → m'.points p = some pt := by
    intro p pt hp hstack
    rw [hpoints]
    exact h.leftPoints hpoint hp (htarget ▸ hstack)
  have hleave : s.leave status =
      some { s.setStatus f status with chain := rest, place := place } := by
    rw [Coroutine.Stack.leave, hchain]
  refine ⟨_, hleave, ?_⟩
  constructor
  · exact h.ok.leave hafter hleave
  · exact hcount.trans h.count
  · exact hrunning
  · exact hplace
  · exact .inl ⟨hrunning ▸ hcur, hrunning ▸ hholder, hmain⟩
  · intro g hg
    show (m'.fiber g).state = stateFor (Function.update s.status f status g)
    by_cases heq : g = f
    · subst heq
      rw [Function.update_self, hstate]
    · rw [Function.update_of_ne heq, hother g heq]
      exact h.state g hg
  · intro g hg
    show m'.Link g (Function.update s.status f status g)
    by_cases heq : g = f
    · subst heq
      rwa [Function.update_self]
    · rw [Function.update_of_ne heq]
      by_cases hactive : s.status g = .active
      · rw [hactive]
        exact trivial
      · -- the resumer is active, so that its stack is not that of `g`
        refine (h.link g hg).mono (hother g heq) fun p pt hp hstack => hkeeps p pt hp ?_
        rw [hstack]
        intro htop
        refine hactive ((h.ok.active g).mpr (hactives ▸ List.mem_cons_of_mem f ?_))
        exact mem_of_top_eq htop.symm
  · have hrest : m.BackLinks rest := by
      have hall := h.back
      rw [hchain] at hall
      exact hall.2
    refine hrest.mono (fun g hg => ?_) fun p pt hp hmem => ?_
    · rw [hother g fun heq => hnot (heq ▸ hg)]
    · exact hkeeps p pt hp fun hstack => top_not_mem_below hnodup (hstack ▸ hmem)
  · intro p hp
    rw [hpoints]
    exact h.leftPoints_unused (hpointCount ▸ hp)

/-! ### The functions -/

/-- A jump goes on with what lies at its point. -/
theorem switch_eq (m : Machine) (frame : Frame) (hpoint : m.points point = some target)
    (data : ℕ) :
    m.switch point frame data =
      (m.jumped point frame target).land m.pointCount data target.frame := by
  rw [switch, jumpFcontext, hpoint, Option.map_some, Option.bind_some]

/-- `Fiber::entry` keeps the handle of the resumer and calls the callback. -/
theorem land_entry {cb : ℕ} (hcb : (m.fiber f).cb = some cb) (fctx : ℕ) :
    m.land fctx f .entry =
      some { m.setFiber f { m.fiber f with backCtx := some fctx, state := .exec } with
        place := .start cb } := by
  simp [land, entry, run, setFiber, hcb]

/-- The rest of `yield_to` keeps the handle of the resumer. -/
theorem land_yieldTo (m : Machine) (fctx data curr : ℕ) :
    m.land fctx data (.yieldTo curr) =
      some (m.setFiber curr { m.fiber curr with backCtx := some fctx }) := rfl

/-- The rest of `resume` keeps the handle of the fiber and restores `t_cur`. -/
theorem land_resume (m : Machine) (fctx data f : ℕ) (prev : Owner) :
    m.land fctx data (.resume f prev) =
      some ((m.setFiber f { m.fiber f with ctx := fctx }).setThis prev) := rfl

/-- The machine at the jump of `resume`. -/
def resuming (m : Machine) (f : ℕ) : Machine :=
  (m.setThis (.fiber f)).setFiber f { m.fiber f with state := .exec }

/-- `resume` of a fiber that may be resumed comes to its jump. -/
theorem resume_eq {prev : Owner} (hthis : m.getThis = (some prev, m')) (hprev : prev ≠ .fiber f)
    (hexec : (m'.fiber f).state ≠ .exec) (hterm : (m'.fiber f).state ≠ .term)
    (hexcept : (m'.fiber f).state ≠ .except) :
    m.resume f = (m'.resuming f).switch (m'.fiber f).ctx (.resume f prev) f := by
  rw [resume, hthis]
  exact if_pos ⟨hprev, hexec, hterm, hexcept⟩

/-- The thread does not run on the stack of a fiber that is not active. -/
theorem Linked.running_ne (h : m.Linked s) (hwaits : s.status f ≠ .active) :
    m.running ≠ .fiber f := by
  intro hrunning
  exact hwaits ((h.ok.active f).mpr (mem_of_top_eq (h.running.symm.trans hrunning)))

/-- `resume` of a fiber that has not begun comes to the start of its callback. -/
theorem Linked.resume_fresh (h : m.Linked s) (hmade : f < s.count) {body : ℕ}
    (hstatus : s.status f = .fresh body) :
    ∃ m', m.resume f = some m' ∧ m'.Linked (s.enter f (.start body)) := by
  obtain ⟨m₁, hthis, h₁, hmain, hrunning, -, -⟩ := h.getThis
  have hwaits : s.status f ≠ .active := by simp [hstatus]
  have hstate : (m₁.fiber f).state = .init := by
    have hall := h₁.state f hmade
    rwa [hstatus] at hall
  obtain ⟨hcb, place, hpoint⟩ : m₁.Link f (.fresh body) := hstatus ▸ h₁.link f hmade
  have hresume := resume_eq hthis (h.running_ne hwaits) (by simp [hstate]) (by simp [hstate])
    (by simp [hstate])
  have hswitch := switch_eq (m₁.resuming f) (.resume f m.running) hpoint f
  have hbody : (((m₁.resuming f).jumped (m₁.fiber f).ctx (.resume f m.running)
      ⟨.fiber f, .entry, place⟩).fiber f).cb = some body := by simp [resuming, hcb]
  have hland := land_entry hbody (m₁.resuming f).pointCount
  refine ⟨_, hresume.trans (hswitch.trans hland), ?_⟩
  refine linked_enter h₁ hmade hwaits hpoint rfl rfl rfl rfl rfl hmain rfl ?_ ?_ ?_ ?_ rfl
  · intro g hg
    simp [resuming, hg]
  · simp
  · simp [resuming, setFiber, setThis]
  · rw [← hrunning]
    rfl

/-- `resume` of a fiber that has yielded comes to the place after that. -/
theorem Linked.resume_suspended (h : m.Linked s) (hmade : f < s.count) {kind : Yield} {place : Place}
    (hstatus : s.status f = .suspended kind place) :
    ∃ m', m.resume f = some m' ∧ m'.Linked (s.enter f place) := by
  obtain ⟨m₁, hthis, h₁, hmain, hrunning, -, -⟩ := h.getThis
  have hwaits : s.status f ≠ .active := by simp [hstatus]
  have hstate : (m₁.fiber f).state = kind.state := by
    have hall := h₁.state f hmade
    rwa [hstatus] at hall
  have hpoint : m₁.Link f (.suspended kind place) := hstatus ▸ h₁.link f hmade
  have hresume := resume_eq hthis (h.running_ne hwaits)
    (by cases kind <;> simp [hstate, Yield.state])
    (by cases kind <;> simp [hstate, Yield.state]) (by cases kind <;> simp [hstate, Yield.state])
  have hswitch := switch_eq (m₁.resuming f) (.resume f m.running) hpoint f
  refine ⟨_, hresume.trans (hswitch.trans (land_yieldTo ..)), ?_⟩
  refine linked_enter h₁ hmade hwaits hpoint rfl rfl rfl rfl rfl hmain rfl ?_ ?_ ?_ ?_ rfl
  · intro g hg
    simp [resuming, hg]
  · simp [resuming]
  · simp [resuming, setFiber, setThis]
  · rw [← hrunning]
    rfl

/-- The fiber that runs has the handle of its resumer. -/
theorem Linked.backCtx (h : m.Linked s) {place : Place} {rest : List (ℕ × Place)}
    (hchain : s.chain = (f, place) :: rest) :
    ∃ point, (m.fiber f).backCtx = some point ∧
      m.points point = some ⟨top rest, .resume f (top rest), place⟩ := by
  have hback := h.back
  rw [hchain] at hback
  exact hback.1

/-- **A switch back** from the fiber that runs: its resumer goes on after the call of
`resume`. -/
theorem switch_back (h : m.Linked s) (hmain : m.mainState = some .exec) {place : Place}
    {rest : List (ℕ × Place)} (hchain : s.chain = (f, place) :: rest) {object : FiberObject}
    {status : Coroutine.Status ℕ Yield} (hafter : status ≠ .active)
    (hstate : object.state = stateFor status)
    (hlink : ∀ m' : Machine, m'.points (m'.fiber f).ctx = some ⟨.fiber f, frame, m.place.next⟩ →
      m'.Link f status)
    (hpoint : m.points point = some ⟨top rest, .resume f (top rest), place⟩) :
    ∃ m' s', (m.setFiber f object).switch point frame f = some m' ∧
      s.leave status = some s' ∧ m'.Linked s' := by
  have hrunning : m.running = .fiber f := by rw [h.running, hchain, top]
  have hswitch := switch_eq (m.setFiber f object) frame hpoint f
  let back : Machine := ((m.setFiber f object).jumped point frame
    ⟨top rest, .resume f (top rest), place⟩)
  have hland := land_resume back m.pointCount f f (top rest)
  have hleft : back.points m.pointCount = some ⟨.fiber f, frame, m.place.next⟩ :=
    hrunning ▸ m.leftPoints_self point frame
  obtain ⟨s', hleave, hlinked⟩ : ∃ s', s.leave status = some s' ∧
      ((back.setFiber f { back.fiber f with ctx := m.pointCount }).setThis (top rest)).Linked s' := by
    refine linked_leave h hchain hpoint rfl hafter rfl rfl rfl rfl hmain rfl ?_ ?_ ?_ rfl rfl
    · intro g hg
      simp [back, hg]
    · simp [back, hstate]
    · refine hlink _ ?_
      simpa using hleft
  exact ⟨_, s', hswitch.trans hland, hleave, hlinked⟩

/-- The fiber that runs is in `EXEC`. -/
theorem Linked.state_of_chain (h : m.Linked s) {place : Place} {rest : List (ℕ × Place)}
    (hchain : s.chain = (f, place) :: rest) : (m.fiber f).state = .exec := by
  have hactive : f ∈ s.actives := by
    rw [Coroutine.Stack.actives, hchain]
    exact List.mem_cons_self
  have hstate := h.state f (h.ok.made f hactive)
  rwa [(h.ok.active f).mpr hactive] at hstate

/-- `yield_to` on a fiber. -/
theorem Linked.yieldTo_linked (h : m.Linked s) {place : Place} {rest : List (ℕ × Place)}
    (hchain : s.chain = (f, place) :: rest) (kind : Yield) :
    ∃ m' s', m.yieldTo kind.state = some m' ∧
      s.leave (.suspended kind s.place.next) = some s' ∧ m'.Linked s' := by
  obtain ⟨m₁, hthis, h₁, hmain, hrunning, -, -⟩ := h.getThis
  have hfiber : m.running = .fiber f := by rw [h.running, hchain, top]
  have hexec := h₁.state_of_chain hchain
  obtain ⟨point, hback, hpoint⟩ := h₁.backCtx hchain
  have hyield : m.yieldTo kind.state =
      (m₁.setFiber f { m₁.fiber f with state := kind.state }).switch point (.yieldTo f) f := by
    rw [yieldTo, hthis, hfiber]
    dsimp only
    rw [if_pos hexec, hback, Option.bind_some]
  rw [hyield]
  refine switch_back h₁ hmain hchain (by simp) (by rfl) (fun m' hm' => ?_) hpoint
  rw [← h₁.place]
  exact hm'

/-- The end of a callback. -/
theorem Linked.finish_linked (h : m.Linked s) {place : Place} {rest : List (ℕ × Place)}
    (hchain : s.chain = (f, place) :: rest) (threw : Bool) :
    ∃ m' s', m.finish f threw = some m' ∧ s.leave (.ended threw) = some s' ∧ m'.Linked s' := by
  have hexec := h.state_of_chain hchain
  obtain ⟨point, hback, hpoint⟩ := h.backCtx hchain
  -- a fiber runs, so that the main fiber has been made
  have hmain : m.mainState = some .exec := by
    rcases h.current with ⟨-, -, hmain⟩ | ⟨-, hrunning⟩
    · exact hmain
    · rw [h.running, hchain] at hrunning
      exact absurd hrunning (by simp [top])
  have hobject : ((m.fiber f).finish threw).backCtx = some point := by
    cases threw <;> simp [FiberObject.finish, hexec, hback]
  have hfinish : m.finish f threw =
      (m.setFiber f ((m.fiber f).finish threw)).switch point .abort f := by
    rw [finish, hobject, Option.bind_some]
  rw [hfinish]
  refine switch_back h hmain hchain (by simp) ?_ (fun _ _ => trivial) hpoint
  cases threw <;> simp [FiberObject.finish, hexec, stateFor]

theorem makeFcontext_points_self (m : Machine) (f : ℕ) :
    (m.makeFcontext f).points m.pointCount = some ⟨.fiber f, .entry, .start 0⟩ := by
  simp [makeFcontext]

theorem makeFcontext_points_of_ne (m : Machine) (f : ℕ) {p : ℕ} (hp : p ≠ m.pointCount) :
    (m.makeFcontext f).points p = (m.points p).filter (·.stack ≠ .fiber f) := by
  simp [makeFcontext, hp]

/-- `make_fcontext` takes nothing from other stacks. -/
theorem Linked.makeFcontext_points (h : m.Linked s) {p : ℕ} {pt : Point}
    (hp : m.points p = some pt) (hstack : pt.stack ≠ .fiber f) :
    (m.makeFcontext f).points p = some pt := by
  have hlt : p ≠ m.pointCount := by
    rintro rfl
    exact absurd ((h.unused _ (Nat.le_refl _)).symm.trans hp) (by simp)
  rw [makeFcontext_points_of_ne m f hlt, hp, Option.filter_some, if_pos (by simpa using hstack)]

/-- **A new entry point** for a fiber that is not active. -/
theorem linked_fresh (h : m.Linked s) (m' : Machine) (s' : Stack) (body : ℕ) (hwaits : s.status f ≠ .active)
    (hle : f ≤ s.count) (hcount : m'.fiberCount = max s.count (f + 1))
    (hrunning : m'.running = m.running) (hplace : m'.place = m.place.next)
    (hcur : m'.tCur = m.tCur) (hholder : m'.tCurHolder = m.tCurHolder)
    (hmain : m'.mainState = m.mainState) (hother : ∀ g, g ≠ f → m'.fiber g = m.fiber g)
    (hstate : (m'.fiber f).state = .init) (hctx : (m'.fiber f).ctx = m.pointCount)
    (hcb : (m'.fiber f).cb = some body) (hpoints : m'.points = (m.makeFcontext f).points)
    (hpointCount : m'.pointCount = m.pointCount + 1)
    (hstatus : s'.status = Function.update s.status f (.fresh body))
    (hcount' : s'.count = max s.count (f + 1)) (hchain : s'.chain = s.chain)
    (hplace' : s'.place = s.place.next) (hok : s'.Ok) : m'.Linked s' := by
  have hnot : f ∉ s.actives := fun hmem => hwaits ((h.ok.active f).mpr hmem)
  have hkeeps : ∀ p pt, m.points p = some pt → pt.stack ≠ .fiber f → m'.points p = some pt := by
    intro p pt hp hstack
    rw [hpoints]
    exact h.makeFcontext_points hp hstack
  have hother' : ∀ g < s'.count, g ≠ f → g < s.count := by
    intro g hg hne
    rw [hcount'] at hg
    omega
  constructor
  · exact hok
  · rw [hcount, hcount']
  · rw [hrunning, hchain, h.running]
  · rw [hplace, hplace', h.place]
  · have hcurrent := h.current
    unfold Current at hcurrent ⊢
    rwa [hcur, hholder, hmain, hrunning]
  · intro g hg
    rw [hstatus]
    by_cases heq : g = f
    · subst heq
      rw [Function.update_self, hstate, stateFor]
    · rw [Function.update_of_ne heq, hother g heq]
      exact h.state g (hother' g hg heq)
  · intro g hg
    rw [hstatus]
    by_cases heq : g = f
    · subst heq
      rw [Function.update_self]
      refine ⟨hcb, .start 0, ?_⟩
      rw [hctx, hpoints, makeFcontext_points_self]
    · rw [Function.update_of_ne heq]
      refine (h.link g (hother' g hg heq)).mono (hother g heq) fun p pt hp hstack => ?_
      refine hkeeps p pt hp ?_
      rw [hstack]
      exact fun hsame => heq (Owner.fiber.inj hsame)
  · rw [hchain]
    refine h.back.mono (fun g hg => ?_) fun p pt hp hmem => ?_
    · rw [hother g fun heq => hnot (heq ▸ hg)]
    · exact hkeeps p pt hp fun hstack => fiber_not_mem_below hnot (hstack ▸ hmem)
  · intro p hp
    rw [hpointCount] at hp
    rw [hpoints]
    rw [makeFcontext_points_of_ne m f (by omega), h.unused p (by omega), Option.filter_none]

/-! ### The simulation -/

theorem create_rel (h : m.Linked s) (body : ℕ) :
    Option.Rel Linked (m.step (.create body)) (s.step (.create body)) := by
  have hstep : s.step (.create body) =
      some { (s.setStatus s.count (.fresh body)).advance with count := s.count + 1 } := rfl
  have hwaits : s.status m.fiberCount ≠ .active := fun hactive =>
    Nat.lt_irrefl _ (h.count ▸ h.ok.made _ ((h.ok.active _).mp hactive))
  have hok := Coroutine.Stack.ok_of_step h.ok hstep
  rw [hstep]
  refine .some (linked_fresh h (m.create body)
    { (s.setStatus s.count (.fresh body)).advance with count := s.count + 1 } body hwaits
    (Nat.le_of_eq h.count) ?_ rfl rfl rfl rfl rfl ?_ ?_ ?_ ?_ rfl rfl ?_ ?_ rfl rfl hok)
  · show m.fiberCount + 1 = _
    rw [← h.count]
    omega
  · intro g hg
    exact Function.update_of_ne hg _ _
  · exact congrArg FiberObject.state (Function.update_self m.fiberCount _ m.fiber)
  · exact congrArg FiberObject.ctx (Function.update_self m.fiberCount _ m.fiber)
  · exact congrArg FiberObject.cb (Function.update_self m.fiberCount _ m.fiber)
  · rw [h.count]
    rfl
  · show s.count + 1 = _
    rw [h.count]
    omega

theorem reset_rel (h : m.Linked s) (f body : ℕ) :
    Option.Rel Linked (m.step (.reset f body)) (s.step (.reset f body)) := by
  by_cases hmade : f < s.count
  · have hstate := h.state f hmade
    have hconcrete : m.step (.reset f body) = m.reset f body := if_pos (h.count ▸ hmade)
    -- the assertion admits what has not begun and what has ended
    have hreset : ∀ status, s.status f = status → status ≠ .active →
        (stateFor status = .init ∨ stateFor status = .term ∨ stateFor status = .except) →
        s.step (.reset f body) = some (s.setStatus f (.fresh body)).advance →
        Option.Rel Linked (m.step (.reset f body)) (s.step (.reset f body)) := by
      intro status hstatus hwaits hasserts hstep
      have hok := Coroutine.Stack.ok_of_step h.ok hstep
      have hpassed := hstate.trans (congrArg stateFor hstatus)
      rw [hconcrete, hstep, Machine.reset, if_pos (by rw [hpassed]; exact hasserts)]
      refine .some (linked_fresh h (m.restarted f body) (s.setStatus f (.fresh body)).advance
        body (hstatus ▸ hwaits) (Nat.le_of_lt hmade) ?_ rfl rfl rfl rfl rfl ?_ ?_ ?_ ?_ rfl rfl rfl ?_ rfl rfl hok)
      · show m.fiberCount = _
        rw [h.count]
        omega
      · intro g hg
        exact Function.update_of_ne hg _ _
      · exact congrArg FiberObject.state (Function.update_self f _ m.fiber)
      · exact congrArg FiberObject.ctx (Function.update_self f _ m.fiber)
      · exact congrArg FiberObject.cb (Function.update_self f _ m.fiber)
      · show s.count = _
        omega
    have hrefuses : (m.fiber f).state ≠ .init → (m.fiber f).state ≠ .term →
        (m.fiber f).state ≠ .except → m.step (.reset f body) = none := by
      intro hinit hterm hexcept
      rw [hconcrete, Machine.reset, if_neg (by simp [hinit, hterm, hexcept])]
    cases hstatus : s.status f with
    | fresh body' =>
      refine hreset _ hstatus (by simp) (.inl rfl) ?_
      simp [Coroutine.Stack.step, hmade, hstatus]
    | ended threw =>
      refine hreset _ hstatus (by simp) (.inr (by cases threw <;> simp [stateFor])) ?_
      simp [Coroutine.Stack.step, hmade, hstatus]
    | suspended kind place =>
      rw [hstatus] at hstate
      have hnone : s.step (.reset f body) = none := by
        simp [Coroutine.Stack.step, hstatus]
      rw [hnone, hrefuses]
      · exact .none
      all_goals cases kind <;> simp [hstate, stateFor, Yield.state]
    | active =>
      rw [hstatus] at hstate
      have hnone : s.step (.reset f body) = none := by
        simp [Coroutine.Stack.step, hstatus]
      rw [hnone, hrefuses]
      · exact .none
      all_goals simp [hstate, stateFor]
  · have hconcrete : m.step (.reset f body) = none := if_neg (h.count ▸ hmade)
    have habstract : s.step (.reset f body) = none := if_neg hmade
    rw [hconcrete, habstract]
    exact .none

theorem resume_rel (h : m.Linked s) (f : ℕ) :
    Option.Rel Linked (m.step (.resume f)) (s.step (.resume f)) := by
  by_cases hmade : f < s.count
  · have hconcrete : m.step (.resume f) = m.resume f := if_pos (h.count ▸ hmade)
    obtain ⟨m₁, hthis, h₁, -, -, -, -⟩ := h.getThis
    have hstate := h₁.state f hmade
    have hrefuses : ((m₁.fiber f).state = .exec ∨ (m₁.fiber f).state = .term ∨
        (m₁.fiber f).state = .except) → m.step (.resume f) = none := by
      intro hbad
      rw [hconcrete, Machine.resume, hthis]
      refine if_neg fun ⟨_, hexec, hterm, hexcept⟩ => ?_
      rcases hbad with hbad | hbad | hbad
      · exact hexec hbad
      · exact hterm hbad
      · exact hexcept hbad
    cases hstatus : s.status f with
    | fresh body =>
      obtain ⟨m', hm', hlinked⟩ := h.resume_fresh hmade hstatus
      have hstep : s.step (.resume f) = some (s.enter f (.start body)) := by
        simp [Coroutine.Stack.step, hmade, hstatus]
      rw [hconcrete, hm', hstep]
      exact .some hlinked
    | suspended kind place =>
      obtain ⟨m', hm', hlinked⟩ := h.resume_suspended hmade hstatus
      have hstep : s.step (.resume f) = some (s.enter f place) := by
        simp [Coroutine.Stack.step, hmade, hstatus]
      rw [hconcrete, hm', hstep]
      exact .some hlinked
    | active =>
      rw [hstatus] at hstate
      have hnone : s.step (.resume f) = none := by simp [Coroutine.Stack.step, hstatus]
      rw [hrefuses (.inl hstate), hnone]
      exact .none
    | ended threw =>
      rw [hstatus] at hstate
      have hnone : s.step (.resume f) = none := by simp [Coroutine.Stack.step, hstatus]
      rw [hrefuses (.inr (by cases threw <;> simp [hstate, stateFor])), hnone]
      exact .none
  · have hconcrete : m.step (.resume f) = none := if_neg (h.count ▸ hmade)
    have habstract : s.step (.resume f) = none := if_neg hmade
    rw [hconcrete, habstract]
    exact .none

theorem yield_rel (h : m.Linked s) (kind : Yield) :
    Option.Rel Linked (m.step (.yield kind)) (s.step (.yield kind)) := by
  cases hchain : s.chain with
  | nil =>
    -- the main fiber cannot yield
    obtain ⟨m₁, hthis, -⟩ := h.getThis
    have hconcrete : m.step (.yield kind) = none := by
      rw [h.running, hchain] at hthis
      show m.yieldTo kind.state = none
      rw [yieldTo, hthis]
      rfl
    have habstract : s.step (.yield kind) = none := by
      show s.leave _ = none
      rw [Coroutine.Stack.leave, hchain]
    rw [hconcrete, habstract]
    exact .none
  | cons link rest =>
    obtain ⟨f, place⟩ := link
    obtain ⟨m', s', hm', hs', hlinked⟩ := h.yieldTo_linked hchain kind
    have hconcrete : m.step (.yield kind) = some m' := hm'
    have habstract : s.step (.yield kind) = some s' := hs'
    rw [hconcrete, habstract]
    exact .some hlinked

theorem finish_rel (h : m.Linked s) (threw : Bool) :
    Option.Rel Linked (m.step (.finish threw)) (s.step (.finish threw)) := by
  cases hchain : s.chain with
  | nil =>
    have hrunning : m.running = .main := by rw [h.running, hchain, top]
    have hconcrete : m.step (.finish threw) = none := by simp [step, hrunning]
    have habstract : s.step (.finish threw) = none := by
      show s.leave _ = none
      rw [Coroutine.Stack.leave, hchain]
    rw [hconcrete, habstract]
    exact .none
  | cons link rest =>
    obtain ⟨f, place⟩ := link
    have hrunning : m.running = .fiber f := by rw [h.running, hchain, top]
    obtain ⟨m', s', hm', hs', hlinked⟩ := h.finish_linked hchain threw
    have hconcrete : m.step (.finish threw) = some m' := by simp [step, hrunning, hm']
    have habstract : s.step (.finish threw) = some s' := hs'
    rw [hconcrete, habstract]
    exact .some hlinked

/-- **Simulation**: each call does what the operation on the coroutines does, and can be made
exactly when that can. -/
theorem step_rel (h : m.Linked s) (call : Call) :
    Option.Rel Linked (m.step call) (s.step call) := by
  cases call with
  | create body => exact create_rel h body
  | resume f => exact resume_rel h f
  | yield kind => exact yield_rel h kind
  | finish threw => exact finish_rel h threw
  | reset f body => exact reset_rel h f body

/-- What is linked agrees. -/
theorem Linked.agrees (h : m.Linked s) : m.Agrees s := by
  obtain ⟨m', hthis, -, hmain, -, -, -⟩ := h.getThis
  refine ⟨h.running, ?_, h.place, h.count, h.state, fun f hf => ?_, ?_⟩
  · rw [hthis, h.running]
  · rw [h.state f hf, ← h.ok.active f]
    cases hstatus : s.status f with
    | fresh body => simp [stateFor]
    | suspended kind place => cases kind <;> simp [stateFor, Yield.state]
    | active => simp [stateFor]
    | ended threw => cases threw <;> simp [stateFor]
  · rw [hthis]
    exact hmain

theorem isSome_of_rel {next : Option Machine} {next' : Option Stack}
    (h : Option.Rel Linked next next') (hsome : next'.isSome = true) : next.isSome = true := by
  cases h with
  | none => exact absurd hsome (by simp)
  | some _ => rfl

/-- What the functions assert is enough for the operation on the coroutines. -/
theorem Linked.step_isSome (h : m.Linked s) {call : Call} (hasserted : m.Asserted call) :
    (s.step call).isSome = true := by
  obtain ⟨m₁, hthis, h₁, -, -, hfiber, -⟩ := h.getThis
  cases call with
  | create body => rfl
  | resume f =>
    obtain ⟨hmade, -, hexec, hterm, hexcept⟩ := hasserted
    rw [h.count] at hmade
    rw [h.state f hmade] at hexec hterm hexcept
    cases hstatus : s.status f with
    | fresh body => simp [Coroutine.Stack.step, hmade, hstatus]
    | suspended kind place => simp [Coroutine.Stack.step, hmade, hstatus]
    | active => simp [hstatus, stateFor] at hexec
    | ended threw => cases threw <;> simp [hstatus, stateFor] at hterm hexcept
  | yield kind =>
    obtain ⟨c, hcurr, -⟩ := hasserted
    rw [hthis, Option.some_inj, h.running] at hcurr
    cases hchain : s.chain with
    | nil => rw [hchain] at hcurr; exact absurd hcurr (by simp [top])
    | cons link rest => simp [Coroutine.Stack.step, Coroutine.Stack.leave, hchain]
  | finish threw =>
    cases hchain : s.chain with
    | nil => exact absurd (h.running.trans (by rw [hchain, top])) hasserted
    | cons link rest => simp [Coroutine.Stack.step, Coroutine.Stack.leave, hchain]
  | reset f body =>
    obtain ⟨hmade, hstate⟩ := hasserted
    rw [h.count] at hmade
    rw [h.state f hmade] at hstate
    cases hstatus : s.status f with
    | fresh body' => simp [Coroutine.Stack.step, hmade, hstatus]
    | suspended kind place => cases kind <;> simp [hstatus, stateFor, Yield.state] at hstate
    | active => simp [hstatus, stateFor] at hstate
    | ended threw => simp [Coroutine.Stack.step, hmade, hstatus]

/-- Every program leads the thread and the stack of coroutines to linked states, or is
refused by both. -/
theorem exec_linked (program : ℕ) (calls : List Call) :
    Option.Rel Linked ((system program).exec (start program) calls)
      ((Coroutine.Stack.system program).exec (.start program) calls) :=
  rel_exec (M := system program) (N := Coroutine.Stack.system program) (R := Linked)
    (fun _ _ call h => step_rel h call) (linked_start program) calls

/-- **Fibers are asymmetric coroutines.**  For every program, the thread runs as the stack of
coroutines does, with the fiber on whose stack it is as the current one; and a call whose
assertions hold never jumps astray. -/
theorem refines_coroutines (program : ℕ) (calls : List Call) :
    Option.Rel Agrees ((system program).exec (start program) calls)
        ((Coroutine.Stack.system program).exec (.start program) calls) ∧
      ∀ m ∈ (system program).exec (start program) calls, ∀ call, m.Asserted call →
        (m.step call).isSome = true := by
  have hlinked := exec_linked program calls
  generalize (system program).exec (start program) calls = concrete,
    (Coroutine.Stack.system program).exec (.start program) calls = abstract at hlinked ⊢
  cases hlinked with
  | none => exact ⟨.none, fun m hmem => absurd hmem (by simp)⟩
  | some hrel =>
    refine ⟨.some hrel.agrees, fun m hmem call hasserted => ?_⟩
    obtain rfl := Option.some_inj.mp hmem
    exact isSome_of_rel (step_rel hrel call) (hrel.step_isSome hasserted)

/-- The first fiber resumes the second, which yields and is resumed again to throw; then the
first one yields to the main program and is resumed. -/
def nestedCalls : List Call :=
  [.create 7, .create 8, .resume 0, .resume 1, .yield .ready, .resume 1, .finish true,
    .yield .hold, .resume 0]

theorem refines_coroutines_run :
    ∃ m s, (system 0).exec (start 0) nestedCalls = some m ∧
      (Coroutine.Stack.system 0).exec (.start 0) nestedCalls = some s ∧ m.Agrees s ∧
      m.running = .fiber 0 ∧ m.place = ⟨7, 3⟩ ∧ (m.fiber 1).state = .except ∧
      (m.step (.reset 1 9)).isSome = true := by
  obtain ⟨m, hm, hrunning, hplace, hstate, hcount⟩ :
      ∃ m, (system 0).exec (start 0) nestedCalls = some m ∧ m.running = .fiber 0 ∧
        m.place = ⟨7, 3⟩ ∧ (m.fiber 1).state = .except ∧ m.fiberCount = 2 :=
    ⟨_, rfl, by decide +kernel, by decide +kernel, by decide +kernel, by decide +kernel⟩
  obtain ⟨hrel, hnext⟩ := refines_coroutines 0 nestedCalls
  have hasserted : m.Asserted (.reset 1 9) := ⟨by omega, .inr (.inr hstate)⟩
  have hreset := hnext m hm _ hasserted
  obtain ⟨s, hs⟩ : ∃ s, (Coroutine.Stack.system 0).exec (.start 0) nestedCalls = some s :=
    ⟨_, rfl⟩
  rw [hm, hs] at hrel
  cases hrel with
  | some hagrees => exact ⟨m, s, hm, hs, hagrees, hrunning, hplace, hstate, hreset⟩

end Machine

end Fibers
