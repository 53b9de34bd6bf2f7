import MegKer.Kernel.ContextSwitch
import MegKer.Kernel.Scheduler
import MegKer.Memory.HeapRequests

/-!
# Creating a thread

`thread_create` on the kernel heap. `Kernel.Scheduler` takes the addresses of a new thread as given;
here they come from `kmalloc`, the fields of a `thread_t` are words of memory, and the first frame is
built on the stack that was allocated. The function for the frame is that of the port.

Neither of the two results of `kmalloc` is looked at. Without memory for the `thread_t` the ring is cut
at the running thread, and without memory for the stack a thread whose `stack_base` is null enters the
ring and is returned as if it could run. So there is no state in which a failed allocation makes
`thread_create` fail and leave everything as it was.
-/

set_option autoImplicit false
set_option relaxedAutoImplicit false

namespace MegKer.Kernel

open Foundation Memory

/-! ### The code -/

/-- The static variables of `kernel/sched.c` and the heap that has the threads. -/
structure SchedHeap where
  heap : Heap
  current : ℕ
  nextId : ℕ

/-- `sizeof(thread_t)`: `id` at offset 0, `sp` at 8, `stack_base` at 16, `stack_size` at 24, `state`
at 32, `next` at 40. -/
abbrev threadBytes : ℕ := 48

/-- What `arch_thread_init_stack` is on some port: from memory, the top of the stack and the two
arguments to memory and the stack pointer. -/
abbrev InitStack := WordMemory → ℕ → ℕ → ℕ → WordMemory × ℕ

namespace SchedHeap

/-- `t->next`. -/
def next (s : SchedHeap) (t : ℕ) : ℕ := s.heap.mem (t + 40)

/-- `t->stack_base`. -/
def stackBase (s : SchedHeap) (t : ℕ) : ℕ := s.heap.mem (t + 16)

/-- `t->state = state`. The field has 32 bits, the rest of its word is padding. -/
def writeState (mem : WordMemory) (t state : ℕ) : WordMemory :=
  mem.store (t + 32) (mem (t + 32) / 2 ^ 32 * 2 ^ 32 + state)

/-- `sched_init`, with THREAD_RUNNING as the state. -/
def schedInit (s : SchedHeap) : SchedHeap :=
  let t := (kmalloc s.heap threadBytes).2
  let heap := (kmalloc s.heap threadBytes).1
  let mem := heap.mem.store t s.nextId
  let mem := mem.store (t + 8) 0
  let mem := mem.store (t + 16) 0
  let mem := mem.store (t + 24) 0
  let mem := writeState mem t 1
  let mem := mem.store (t + 40) t
  { heap := { heap with mem := mem }, current := t, nextId := wrap (s.nextId + 1) }

/-- The start of `thread_create`: allocate the `thread_t`, and fill in `id` and `stack_size`. -/
def allocThread (s : SchedHeap) : SchedHeap × ℕ :=
  let t := (kmalloc s.heap threadBytes).2
  let heap := (kmalloc s.heap threadBytes).1
  let mem := heap.mem.store t s.nextId
  let mem := mem.store (t + 24) threadStackSize
  ({ s with heap := { heap with mem := mem }, nextId := wrap (s.nextId + 1) }, t)

/-- The stack of a new thread: allocate it, store `stack_base`, and build the first frame. The result
is the stack pointer. -/
def allocStack (initStack : InitStack) (s : SchedHeap) (t entry arg : ℕ) : SchedHeap × ℕ :=
  let base := (kmalloc s.heap threadStackSize).2
  let heap := (kmalloc s.heap threadStackSize).1
  let mem := heap.mem.store (t + 16) base
  let frame := initStack mem (wrap (base + threadStackSize)) entry arg
  ({ s with heap := { heap with mem := frame.1 } }, frame.2)

/-- `thread_create`, with THREAD_READY as the state. -/
def threadCreate (initStack : InitStack) (s : SchedHeap) (entry arg : ℕ) : SchedHeap × ℕ :=
  let t := (allocThread s).2
  let s := (allocThread s).1
  let sp := (allocStack initStack s t entry arg).2
  let s := (allocStack initStack s t entry arg).1
  let mem := s.heap.mem.store (t + 8) sp
  let mem := writeState mem t 0
  -- into the ring right after the running thread
  let mem := mem.store (t + 40) (mem (s.current + 40))
  let mem := mem.store (s.current + 40) t
  ({ s with heap := { s.heap with mem := mem } }, t)

/-! ### Failed allocations -/

/-- One of the two allocations of `thread_create` fails. -/
def Exhausted (s : SchedHeap) : Prop :=
  (kmalloc s.heap threadBytes).2 = 0 ∨ (kmalloc (allocThread s).1.heap threadStackSize).2 = 0

/-- `thread_create` fails and leaves everything as it was: it returns null, the ring from the running
thread is the same, no block is in use that was not in use before, and memory has changed in the heap
only, outside the blocks that are in use. -/
structure FailsAtomically (initStack : InitStack) (s : SchedHeap) (entry arg : ℕ) : Prop where
  reported : (threadCreate initStack s entry arg).2 = 0
  current : (threadCreate initStack s entry arg).1.current = s.current
  ring : ∀ n, (threadCreate initStack s entry arg).1.next^[n] s.current = s.next^[n] s.current
  blocks : ∀ arenas arenas', HeapAt s.heap arenas →
    HeapAt (threadCreate initStack s entry arg).1.heap arenas' →
    ∀ header b, b.free = false → (header, b) ∈ heapBlocks arenas' → (header, b) ∈ heapBlocks arenas
  writes : ∀ arenas', HeapAt (threadCreate initStack s entry arg).1.heap arenas' →
    ∀ w, (threadCreate initStack s entry arg).1.heap.mem w ≠ s.heap.mem w →
      (∃ a ∈ arenas', a.base ≤ w ∧ w < a.base + a.frames * 4096) ∧
      ∀ header b, b.free = false → (header, b) ∈ heapBlocks arenas' →
        ¬ (header + 24 ≤ w ∧ w < header + 24 + b.size)

/-- The thread after the running one is always the result of `kmalloc`, null or not. -/
theorem next_threadCreate (initStack : InitStack) (s : SchedHeap) (entry arg : ℕ) :
    (threadCreate initStack s entry arg).1.next s.current =
      (threadCreate initStack s entry arg).2 :=
  WordMemory.store_same _ _ _

/-- In no state in which an allocation fails does `thread_create` fail atomically: it returns null
only after it has written null to the `next` field of the running thread. -/
theorem threadCreate_not_atomic (initStack : InitStack) (s : SchedHeap) (entry arg : ℕ)
    (hring : s.next s.current ≠ 0) :
    s.Exhausted → ¬ FailsAtomically initStack s entry arg := by
  intro _ hatomic
  have hcut := next_threadCreate initStack s entry arg
  rw [hatomic.reported] at hcut
  exact hring ((hatomic.ring 1).symm.trans hcut)

/-- The heap of a small machine after `heap_init` and `sched_init`, and a block of 60000 bytes. No
further arena fits in the frames that are left. -/
def nearlyFull : SchedHeap :=
  let s := schedInit ⟨smallHeap, 0, 0⟩
  { s with heap := (kmalloc s.heap 60000).1 }

theorem exhausted_nearlyFull : nearlyFull.Exhausted := by
  right
  decide +kernel

theorem next_nearlyFull : nearlyFull.next nearlyFull.current ≠ 0 := by decide +kernel

/-- Here the stack cannot be allocated. The new thread is returned and is next in the ring, with a null
`stack_base`, and its first frame is below the address `0x4000`, inside the block of 60000 bytes. -/
theorem not_failsAtomically_nearlyFull :
    let created := threadCreate (X86.archThreadInitStack ⟨1, 2, 3, 4⟩) nearlyFull 100 200
    nearlyFull.Exhausted ∧ created.2 ≠ 0 ∧ created.1.next nearlyFull.current = created.2 ∧
      created.1.stackBase created.2 = 0 ∧ created.1.heap.mem 0x3ff8 = 2 ∧
      ¬ FailsAtomically (X86.archThreadInitStack ⟨1, 2, 3, 4⟩) nearlyFull 100 200 := by
  have hresult : (threadCreate (X86.archThreadInitStack ⟨1, 2, 3, 4⟩) nearlyFull 100 200).2 ≠ 0 := by
    decide +kernel
  refine ⟨exhausted_nearlyFull, hresult, next_threadCreate _ _ _ _, by decide +kernel,
    by decide +kernel, fun hatomic ↦ hresult hatomic.reported⟩

theorem threadCreate_not_atomic_nearlyFull :
    ¬ FailsAtomically (AArch64.archThreadInitStack ⟨1, 2, 3, 4⟩) nearlyFull 100 200 :=
  threadCreate_not_atomic _ nearlyFull 100 200 next_nearlyFull exhausted_nearlyFull

end SchedHeap

end MegKer.Kernel
