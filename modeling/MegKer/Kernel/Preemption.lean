import MegKer.Foundation.Transition
import MegKer.Kernel.Scheduler

/-!
# The scheduler under preemption

The code of `kernel/sched.c` at the grain of single accesses to shared memory. A context is what a
thread's stack and registers hold: the thread it belongs to, and the point it has reached in the code
of the scheduler with the values it has read so far. Between any two accesses the timer interrupt may
run `sched_tick`, which is atomic: interrupts are off in the handler.

`thread_create` begins with two calls of `kmalloc`, which is not written for being interrupted either. Of
its accesses only what matters here is kept: while no other thread has run between the first and the last
of them, a call returns null or memory that no call has returned before (`Machine.intact`), and from then
on the blocks may be handed out twice, so nothing is said about what it returns.

`arch_context_switch` saves the running context at a new stack pointer, stores that stack pointer in
the slot it was given, and continues with the context at the other stack pointer. Stack pointers are
numbered in the order in which contexts are saved, so that each stands for one save.

The machine keeps a history beside the state of the code: the threads that were linked into the ring,
where each thread's context was last saved, which slot each save went to, the stack pointers that were
resumed, and the order of switches and unlinkings. The properties are stated on it (`Safe`).
-/

set_option autoImplicit false
set_option relaxedAutoImplicit false

namespace MegKer.Kernel

open Foundation

/-! ### The code, one access at a time -/

/-- A point in the code of the scheduler, with the values read so far. Each point is in front of one
access, but for the first, the last, and those inside `kmalloc`. -/
inductive Point
  /-- Outside the scheduler. -/
  | outside
  /-- `sched_yield`: `current->next != current`. -/
  | yieldCurrent
  | yieldNext (head : ℕ)
  | yieldTest (next : ℕ)
  /-- `sched_yield`: the argument `current->next` of `switch_to`. -/
  | yieldArgument
  | yieldArgumentNext (head : ℕ)
  /-- `switch_to`: `prev = current`, `current = next`, and the argument `next->sp`. -/
  | switchPrev (next : ℕ)
  | switchCurrent (prev next : ℕ)
  | switchSp (prev next : ℕ)
  /-- `thread_create`: inside `kmalloc(sizeof(thread_t))` and `kmalloc(THREAD_STACK_SIZE)`. -/
  | createThread
  | createStack (t : ℕ)
  /-- `thread_create`: `next_id++`, and the fields of the new thread. -/
  | createId (t stackBase : ℕ)
  | createIdUp (t stackBase id : ℕ)
  | createFill (t stackBase id : ℕ)
  /-- `thread_create`: `t->next = current->next`. -/
  | createCurrent (t : ℕ)
  | createNext (t head : ℕ)
  | createPoint (t next : ℕ)
  /-- `thread_create`: `current->next = t`. -/
  | createLinkCurrent (t : ℕ)
  | createLink (t head : ℕ)
  /-- `thread_exit`: `dead = current`, `dead->state = THREAD_DEAD`. -/
  | exitCurrent
  | exitMark (dead : ℕ)
  /-- `thread_exit`: the test and the body of the loop. -/
  | exitTest (dead p : ℕ)
  | exitAdvance (dead p : ℕ)
  /-- `thread_exit`: `p->next = dead->next`. -/
  | exitNext (dead p : ℕ)
  | exitUnlink (dead p next : ℕ)
  /-- `thread_exit`: `target = dead->next`, `current = target`, and the argument `target->sp`. -/
  | exitTarget (dead : ℕ)
  | exitSwitch (dead target : ℕ)
  | exitSp (dead target : ℕ)
  /-- `arch_context_switch`: `*old_sp = rsp`, and then `rsp = new_sp`. The context that is saved
  continues at `after`. -/
  | save (slot newSp : ℕ) (after : Point)
  | load (newSp : ℕ)
  /-- Behind the call of `thread_exit` in the trampoline. -/
  | hang
  deriving DecidableEq, Repr

/-- The points inside `kmalloc`. -/
def Point.Allocating : Point → Bool
  | .createThread | .createStack _ => true
  | _ => false

/-- The stack and the registers of a thread. -/
structure Context where
  owner : ℕ
  point : Point
  deriving DecidableEq, Repr

/-- What happens to a thread in the ring. -/
inductive Event
  /-- It becomes the current thread, or its context is resumed. -/
  | switch (t : ℕ)
  /-- It is unlinked from the ring. -/
  | unlink (t : ℕ)
  deriving DecidableEq, Repr

/-- The state of the scheduler and of the processor, with the history. -/
structure Machine where
  sched : Sched
  running : Context
  /-- The contexts that were saved, by their stack pointers. -/
  frames : ℕ → Context
  frameCount : ℕ
  /-- The addresses that `kmalloc` has returned for threads and their stacks, and who asked for them. -/
  allocated : List ℕ
  creator : ℕ → ℕ
  /-- No other thread has run while one was inside `kmalloc`. -/
  intact : Bool
  /-- The threads that were linked into the ring. -/
  created : List ℕ
  /-- The stack pointer at which the context of a thread was last left. -/
  saved : ℕ → ℕ
  /-- The slots that stack pointers were stored in, with the owners of the contexts. -/
  saves : List (ℕ × ℕ)
  resumed : List ℕ
  /-- The latest event comes first. -/
  events : List Event

namespace Machine

/-- The running context moves on. -/
def goto (m : Machine) (point : Point) : Machine :=
  { m with running := { m.running with point := point } }

/-- The field `next` of a thread. -/
def next (m : Machine) (t : ℕ) : ℕ := m.sched.next t

/-- The field `sp` of a thread. -/
def sp (m : Machine) (t : ℕ) : ℕ := (m.sched.threads t).sp

/-- The field `state` of a thread. -/
def state (m : Machine) (t : ℕ) : ThreadState := (m.sched.threads t).state

/-- `current = t`. -/
def setCurrent (m : Machine) (t : ℕ) : Machine :=
  { m with sched := m.sched.setCurrent t, events := .switch t :: m.events }

/-- A context at a new stack pointer. -/
def push (m : Machine) (context : Context) : Machine :=
  { m with frames := Function.update m.frames m.frameCount context
           frameCount := m.frameCount + 1
           saved := Function.update m.saved context.owner m.frameCount }

/-- The running context is saved, to continue at `after`, and its stack pointer goes into a slot. -/
def leave (m : Machine) (slot : ℕ) (after : Point) : Machine :=
  let pushed := m.push { m.running with point := after }
  { pushed with sched := m.sched.setSp slot m.frameCount
                saves := (slot, m.running.owner) :: m.saves }

/-- The context at a stack pointer continues. -/
def resume (m : Machine) (newSp : ℕ) : Machine :=
  { m with running := m.frames newSp
           resumed := newSp :: m.resumed
           events := .switch (m.frames newSp).owner :: m.events }

/-- The running context is interrupted for another thread. -/
def disturb (m : Machine) : Machine :=
  { m with intact := m.intact && !m.running.point.Allocating }

/-- The timer interrupt: `sched_tick` on the stack of the running context. -/
def tick (m : Machine) : Machine :=
  if m.sched.enabled = true ∧ m.next m.sched.current ≠ m.sched.current then
    ((m.disturb.setCurrent (m.next m.sched.current)).leave m.sched.current m.running.point).resume
      (m.sp (m.next m.sched.current))
  else m

/-- Memory that is handed out to the running thread. -/
def allocate (m : Machine) (address : ℕ) : Machine :=
  { m with allocated := address :: m.allocated
           creator := Function.update m.creator address m.running.owner }

/-- `t->id`, `t->stack_size`, `t->stack_base`, `t->sp` and `t->state`: the new thread is not shared
yet. `arch_thread_init_stack` lays out a context that starts the thread. -/
def fill (m : Machine) (t stackBase id : ℕ) : Machine :=
  { m.push { owner := t, point := .outside } with
    sched := m.sched.set t
      { id := id
        sp := m.frameCount
        stackBase := stackBase
        stackSize := threadStackSize
        state := .ready
        next := m.next t } }

/-- `head->next = t`, which publishes the new thread. -/
def link (m : Machine) (t head : ℕ) : Machine :=
  { m with sched := m.sched.setNext head t, created := t :: m.created }

/-- `p->next = next`, which takes `dead` out of the ring. -/
def unlink (m : Machine) (dead p next : ℕ) : Machine :=
  { m with sched := m.sched.setNext p next, events := .unlink dead :: m.events }

/-- One access of the running context. -/
def advance (m : Machine) : Point → Machine
  | .outside => m
  | .yieldCurrent => m.goto (.yieldNext m.sched.current)
  | .yieldNext head => m.goto (.yieldTest (m.next head))
  | .yieldTest next => m.goto (if next ≠ m.sched.current then .yieldArgument else .outside)
  | .yieldArgument => m.goto (.yieldArgumentNext m.sched.current)
  | .yieldArgumentNext head => m.goto (.switchPrev (m.next head))
  | .switchPrev next => m.goto (.switchCurrent m.sched.current next)
  | .switchCurrent prev next => (m.setCurrent next).goto (.switchSp prev next)
  | .switchSp prev next => m.goto (.save prev (m.sp next) .outside)
  | .createThread => m
  | .createStack _ => m
  | .createId t stackBase => m.goto (.createIdUp t stackBase m.sched.nextId)
  | .createIdUp t stackBase id =>
    { m with sched := { m.sched with nextId := wrap (id + 1) } }.goto (.createFill t stackBase id)
  | .createFill t stackBase id => (m.fill t stackBase id).goto (.createCurrent t)
  | .createCurrent t => m.goto (.createNext t m.sched.current)
  | .createNext t head => m.goto (.createPoint t (m.next head))
  | .createPoint t next =>
    { m with sched := m.sched.setNext t next }.goto (.createLinkCurrent t)
  | .createLinkCurrent t => m.goto (.createLink t m.sched.current)
  | .createLink t head => (m.link t head).goto .outside
  | .exitCurrent => m.goto (.exitMark m.sched.current)
  | .exitMark dead => { m with sched := m.sched.setState dead .dead }.goto (.exitTest dead dead)
  | .exitTest dead p => m.goto (if m.next p ≠ dead then .exitAdvance dead p else .exitNext dead p)
  | .exitAdvance dead p => m.goto (.exitTest dead (m.next p))
  | .exitNext dead p => m.goto (.exitUnlink dead p (m.next dead))
  | .exitUnlink dead p next => (m.unlink dead p next).goto (.exitTarget dead)
  | .exitTarget dead => m.goto (.exitSwitch dead (m.next dead))
  | .exitSwitch dead target => (m.setCurrent target).goto (.exitSp dead target)
  | .exitSp dead target => m.goto (.save dead (m.sp target) .hang)
  | .save slot newSp after => (m.leave slot after).goto (.load newSp)
  | .load newSp => m.resume newSp
  | .hang => m

end Machine

/-- A call that a thread makes. -/
inductive ThreadCall
  | yield
  | create
  | exit
  deriving DecidableEq, Repr

/-- What may happen next. -/
inductive Action
  | call (c : ThreadCall)
  | advance
  /-- `kmalloc` returns an address, or 0. -/
  | kmalloc (address : ℕ)
  | tick
  deriving DecidableEq, Repr

/-- The running thread makes a call. -/
def Machine.begin (m : Machine) : ThreadCall → Machine
  | .yield => m.goto .yieldCurrent
  | .create => m.goto .createThread
  | .exit => m.goto .exitCurrent

/-- `kmalloc` returns to the running thread. As long as it was left alone, this is null or an address
that it has not returned before. -/
def Machine.kmalloc (m : Machine) (address : ℕ) : Option Machine :=
  if m.intact = true ∧ address ≠ 0 ∧ address ∈ m.allocated then none
  else
    match m.running.point with
    | .createThread => some ((m.allocate address).goto (.createStack address))
    | .createStack t => some ((m.allocate address).goto (.createId t address))
    | _ => none

/-- The step relation. -/
def Machine.step (m : Machine) : Action → Option Machine
  | .call c => if m.running.point = .outside then some (m.begin c) else none
  | .advance => some (m.advance m.running.point)
  | .kmalloc address => m.kmalloc address
  | .tick => some m.tick

/-- The machine after `sched_init`, in the first thread. -/
def Machine.boot (s : Sched) (t : ℕ) : Machine where
  sched := schedInit s t
  running := { owner := t, point := .outside }
  frames := fun _ ↦ { owner := t, point := .hang }
  frameCount := 1
  allocated := [t]
  creator := fun _ ↦ t
  intact := true
  created := [t]
  saved := fun _ ↦ 0
  saves := []
  resumed := []
  events := []

/-! ### The properties -/

/-- No thread is switched to after it was unlinked. -/
def NeverAgain : List Event → Prop
  | [] => True
  | .unlink _ :: events => NeverAgain events
  | .switch t :: events => .unlink t ∉ events ∧ NeverAgain events

/-- A thread that is in the ring and is not marked dead. -/
def Machine.Live (m : Machine) (t : ℕ) : Prop := t ∈ m.created ∧ m.state t ≠ .dead

/-- Dead threads that are unlinked are never switched to; the live threads are in the ring; each live
thread that does not run has the stack pointer at which it was left; and no context is stored in the
slot of another thread or resumed twice. -/
structure Safe (m : Machine) : Prop where
  never_again : NeverAgain m.events
  in_ring : ∃ head rest, IsRing m.sched.next head rest ∧ m.next m.sched.current ∈ head :: rest ∧
    ∀ t, m.Live t → t ∈ head :: rest
  sp_eq : ∀ t, m.Live t → t ≠ m.running.owner → m.sp t = m.saved t
  own_slot : ∀ save ∈ m.saves, save.1 = save.2
  resumed_nodup : m.resumed.Nodup

end MegKer.Kernel
