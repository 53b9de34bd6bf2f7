import MegKer.Foundation.MachineWord
import MegKer.Foundation.PointerRing

/-!
# The scheduler

The round-robin scheduler of `kernel/sched.c`. A thread is a `thread_t` in memory, known by its
address, and the threads form a ring through their `next` fields. A call of the scheduler is atomic
here. Where it switches contexts, the stack pointer at which the running context is left is a machine
value, and an argument of the call; so are the addresses that `kmalloc` returns.

`Roster` adds to the state of the scheduler what has happened so far: the threads created, those that
have exited, and the threads that were switched to, in order. `InRing` is the invariant: the threads
that were created and have not exited are the nodes of the ring, each once, and the others are marked
dead. `inRing_run` is the step lemma, with the list of the ring before and after.
-/

set_option autoImplicit false
set_option relaxedAutoImplicit false

namespace MegKer.Kernel

open Foundation

/-! ### The code -/

/-- `thread_state_t`. -/
inductive ThreadState
  | ready
  | running
  | blocked
  | dead
  deriving DecidableEq, Repr

/-- `thread_t`. -/
structure Thread where
  id : ℕ
  sp : ℕ
  stackBase : ℕ
  stackSize : ℕ
  state : ThreadState
  next : ℕ
  deriving DecidableEq, Repr

/-- The threads in memory and the static variables of `kernel/sched.c`. -/
structure Sched where
  threads : ℕ → Thread
  current : ℕ
  nextId : ℕ
  enabled : Bool

def threadStackSize : ℕ := 16 * 1024

/-- The field `next` of the threads in memory. -/
def Sched.next (s : Sched) (t : ℕ) : ℕ := (s.threads t).next

/-- Write a whole `thread_t`. -/
def Sched.set (s : Sched) (t : ℕ) (thread : Thread) : Sched :=
  { s with threads := Function.update s.threads t thread }

/-- `t->next = n`. -/
def Sched.setNext (s : Sched) (t n : ℕ) : Sched := s.set t { s.threads t with next := n }

/-- `t->state = state`. -/
def Sched.setState (s : Sched) (t : ℕ) (state : ThreadState) : Sched :=
  s.set t { s.threads t with state := state }

/-- `t->sp = sp`. -/
def Sched.setSp (s : Sched) (t sp : ℕ) : Sched := s.set t { s.threads t with sp := sp }

/-- `current = t`. -/
def Sched.setCurrent (s : Sched) (t : ℕ) : Sched := { s with current := t }

/-- `sched_init`, with the address of the new `thread_t`. -/
def schedInit (s : Sched) (t : ℕ) : Sched :=
  let s := { s with nextId := wrap (s.nextId + 1) }.set t
    { id := s.nextId, sp := 0, stackBase := 0, stackSize := 0, state := .running, next := t }
  { s with current := t, enabled := true }

/-- `thread_create`, with the addresses of the new `thread_t` and of its stack, and the stack pointer
that `arch_thread_init_stack` returns. -/
def threadCreate (s : Sched) (t stackBase sp : ℕ) : Sched :=
  let s := { s with nextId := wrap (s.nextId + 1) }.set t
    { id := s.nextId
      sp := sp
      stackBase := stackBase
      stackSize := threadStackSize
      state := .ready
      next := s.next s.current }
  s.setNext s.current t

/-- `switch_to`. The running context is left at the stack pointer `sp`. -/
def switchTo (s : Sched) (next sp : ℕ) : Sched :=
  let prev := s.current
  (s.setCurrent next).setSp prev sp

def schedYield (s : Sched) (sp : ℕ) : Sched :=
  if s.next s.current ≠ s.current then switchTo s (s.next s.current) sp else s

def schedTick (s : Sched) (sp : ℕ) : Sched := if !s.enabled then s else schedYield s sp

/-- `thread_exit`. The loop that looks for the predecessor has `fuel` iterations; when it does not end
by then, there is no result. -/
def threadExit (fuel : ℕ) (s : Sched) (sp : ℕ) : Option Sched :=
  let dead := s.current
  let s := s.setState dead .dead
  (seek s.next dead fuel dead).map fun p ↦
    let s := s.setNext p (s.next dead)
    let target := s.next dead
    (s.setCurrent target).setSp dead sp

/-! ### Runs -/

/-- The scheduler and its history. -/
structure Roster where
  sched : Sched
  created : List ℕ
  exited : List ℕ
  /-- The threads whose turns have started so far. -/
  turns : List ℕ

/-- A call of the scheduler. -/
inductive SchedCall
  | create (t stackBase sp : ℕ)
  | yield (sp : ℕ)
  | tick (sp : ℕ)
  | exit (sp : ℕ)
  deriving DecidableEq, Repr

/-- The roster with a new state of the scheduler. A turn starts when `current` changes. -/
def Roster.after (r : Roster) (s : Sched) : Roster :=
  { r with sched := s
           turns := r.turns ++ if s.current = r.sched.current then [] else [s.current] }

/-- The state after a call. -/
def SchedCall.run (r : Roster) : SchedCall → Option Roster
  | .create t stackBase sp =>
    some { r.after (threadCreate r.sched t stackBase sp) with created := t :: r.created }
  | .yield sp => some (r.after (schedYield r.sched sp))
  | .tick sp => some (r.after (schedTick r.sched sp))
  | .exit sp =>
    (threadExit r.created.length r.sched sp).map fun s ↦
      { r.after s with exited := r.sched.current :: r.exited }

/-- The state after a sequence of calls. -/
def runs (r : Roster) : List SchedCall → Option Roster
  | [] => some r
  | call :: calls => (call.run r).bind fun r ↦ runs r calls

/-- The roster after `sched_init`. -/
def Roster.init (s : Sched) (t : ℕ) : Roster where
  sched := schedInit s t
  created := [t]
  exited := []
  turns := [t]

/-- A thread that was created and has not exited. -/
def Roster.Live (r : Roster) (t : ℕ) : Prop := t ∈ r.created ∧ t ∉ r.exited

/-- The threads that are live. -/
def Roster.live (r : Roster) : List ℕ := r.created.filter fun t ↦ t ∉ r.exited

theorem Roster.mem_live {r : Roster} {t : ℕ} : t ∈ r.live ↔ r.Live t := by
  simp [Roster.live, Roster.Live]

/-- The condition on a call: `kmalloc` returns an address that is not in use, and a thread exits only
while there are two. -/
def SchedCall.Allowed (r : Roster) : SchedCall → Prop
  | .create t _ _ => t ∉ r.created
  | .exit _ => 2 ≤ r.live.length
  | _ => True

instance (r : Roster) : (call : SchedCall) → Decidable (call.Allowed r)
  | .create t _ _ => inferInstanceAs (Decidable (t ∉ r.created))
  | .yield _ => inferInstanceAs (Decidable True)
  | .tick _ => inferInstanceAs (Decidable True)
  | .exit _ => inferInstanceAs (Decidable (2 ≤ r.live.length))

/-- A sequence of calls each of which is allowed. -/
def Schedulable : Roster → List SchedCall → Prop
  | _, [] => True
  | r, call :: calls => call.Allowed r ∧ ∀ r', call.run r = some r' → Schedulable r' calls

/-- The memory before `sched_init`, for examples. -/
def blankSched : Sched where
  threads := fun _ ↦ { id := 0, sp := 0, stackBase := 0, stackSize := 0, state := .ready, next := 0 }
  current := 0
  nextId := 0
  enabled := false

/-! ### The invariant -/

/-- The ring consists of the head `current` and `rest`, and its nodes are the live threads; the other
threads are marked dead. -/
structure InRing (r : Roster) (rest : List ℕ) : Prop where
  ring : IsRing r.sched.next r.sched.current rest
  enabled : r.sched.enabled = true
  created_nodup : r.created.Nodup
  mem_iff : ∀ t, t ∈ r.sched.current :: rest ↔ r.Live t
  dead_iff : ∀ t ∈ r.created, ((r.sched.threads t).state = .dead ↔ t ∉ r.sched.current :: rest)
  exited_subset : ∀ t ∈ r.exited, t ∈ r.created
  turns_subset : ∀ t ∈ r.turns, t ∈ r.created

/-- What a call does to the list of the ring. -/
def SchedCall.ring : SchedCall → List ℕ → List ℕ
  | .create t _ _, head :: rest => head :: t :: rest
  | .yield _, head :: x :: rest => x :: (rest ++ [head])
  | .tick _, head :: x :: rest => x :: (rest ++ [head])
  | .exit _, _ :: x :: rest => x :: rest
  | _, xs => xs

/-- The turn that starts with a call. -/
def SchedCall.turn : SchedCall → List ℕ → List ℕ
  | .yield _, _ :: x :: _ => [x]
  | .tick _, _ :: x :: _ => [x]
  | .exit _, _ :: x :: _ => [x]
  | _, _ => []

/-! ### The memory after a call -/

section Writes

variable (s : Sched) (t : ℕ)

@[simp] theorem next_set (thread : Thread) :
    (s.set t thread).next = Function.update s.next t thread.next := by
  funext u
  change (Function.update s.threads t thread u).next = _
  by_cases hu : u = t
  · rw [hu, Function.update_self, Function.update_self]
  · rw [Function.update_of_ne hu, Function.update_of_ne hu, Sched.next]

@[simp] theorem state_set (thread : Thread) (u : ℕ) :
    ((s.set t thread).threads u).state = if u = t then thread.state else (s.threads u).state := by
  change (Function.update s.threads t thread u).state = _
  by_cases hu : u = t
  · rw [hu, Function.update_self, if_pos rfl]
  · rw [Function.update_of_ne hu, if_neg hu]

@[simp] theorem next_setNext (n : ℕ) : (s.setNext t n).next = Function.update s.next t n :=
  next_set s t _

@[simp] theorem next_setState (state : ThreadState) : (s.setState t state).next = s.next :=
  (next_set s t _).trans (Function.update_eq_self _ _)

@[simp] theorem next_setSp (sp : ℕ) : (s.setSp t sp).next = s.next :=
  (next_set s t _).trans (Function.update_eq_self _ _)

@[simp] theorem next_setCurrent : (s.setCurrent t).next = s.next := rfl

@[simp] theorem state_setNext (n u : ℕ) :
    ((s.setNext t n).threads u).state = (s.threads u).state := by
  rw [Sched.setNext, state_set]
  split_ifs with hu <;> simp [hu]

@[simp] theorem state_setState (state : ThreadState) (u : ℕ) :
    ((s.setState t state).threads u).state = if u = t then state else (s.threads u).state :=
  state_set s t _ u

@[simp] theorem state_setSp (sp u : ℕ) :
    ((s.setSp t sp).threads u).state = (s.threads u).state := by
  rw [Sched.setSp, state_set]
  split_ifs with hu <;> simp [hu]

@[simp] theorem state_setCurrent (u : ℕ) :
    ((s.setCurrent t).threads u).state = (s.threads u).state := rfl

theorem sp_set (thread : Thread) (u : ℕ) :
    ((s.set t thread).threads u).sp = if u = t then thread.sp else (s.threads u).sp := by
  change (Function.update s.threads t thread u).sp = _
  by_cases hu : u = t
  · rw [hu, Function.update_self, if_pos rfl]
  · rw [Function.update_of_ne hu, if_neg hu]

@[simp] theorem sp_setNext (n u : ℕ) : ((s.setNext t n).threads u).sp = (s.threads u).sp := by
  rw [Sched.setNext, sp_set]
  split_ifs with hu <;> simp [hu]

@[simp] theorem sp_setState (state : ThreadState) (u : ℕ) :
    ((s.setState t state).threads u).sp = (s.threads u).sp := by
  rw [Sched.setState, sp_set]
  split_ifs with hu <;> simp [hu]

@[simp] theorem sp_setSp (sp u : ℕ) :
    ((s.setSp t sp).threads u).sp = if u = t then sp else (s.threads u).sp :=
  sp_set s t _ u

@[simp] theorem current_set (thread : Thread) : (s.set t thread).current = s.current := rfl

@[simp] theorem current_setNext (n : ℕ) : (s.setNext t n).current = s.current := rfl

@[simp] theorem current_setState (state : ThreadState) :
    (s.setState t state).current = s.current := rfl

@[simp] theorem current_setSp (sp : ℕ) : (s.setSp t sp).current = s.current := rfl

@[simp] theorem current_setCurrent : (s.setCurrent t).current = t := rfl

end Writes

/-- `thread_create` inserts the thread behind the head. -/
theorem threadCreate_spec {s : Sched} {rest : List ℕ} (h : IsRing s.next s.current rest) {t : ℕ}
    (ht : t ∉ s.current :: rest) (stackBase sp : ℕ) :
    (threadCreate s t stackBase sp).current = s.current ∧
      (threadCreate s t stackBase sp).enabled = s.enabled ∧
      IsRing (threadCreate s t stackBase sp).next s.current (t :: rest) ∧
      ∀ u, ((threadCreate s t stackBase sp).threads u).state =
        if u = t then .ready else (s.threads u).state := by
  refine ⟨rfl, rfl, ?_, fun u ↦ ?_⟩
  · have hinsert := h.insert ht
    have hnext : (threadCreate s t stackBase sp).next =
        Function.update (Function.update s.next t (s.next s.current)) s.current t := by
      rw [threadCreate, next_setNext, next_set]
      rfl
    rwa [hnext]
  · rw [threadCreate, state_setNext, state_set]

/-- A switch changes `current` and a stack pointer. -/
theorem switchTo_spec (s : Sched) (next sp : ℕ) :
    (switchTo s next sp).current = next ∧ (switchTo s next sp).enabled = s.enabled ∧
      (switchTo s next sp).next = s.next ∧
      ∀ u, ((switchTo s next sp).threads u).state = (s.threads u).state :=
  ⟨rfl, rfl, by rw [switchTo, next_setSp, next_setCurrent],
    fun u ↦ by rw [switchTo, state_setSp, state_setCurrent]⟩

/-- `thread_exit` on a ring of two threads or more: the head is marked dead and taken out. -/
theorem threadExit_spec {s : Sched} {x : ℕ} {rest : List ℕ}
    (h : IsRing s.next s.current (x :: rest)) {fuel : ℕ} (hfuel : (x :: rest).length < fuel)
    (sp : ℕ) :
    ∃ s', threadExit fuel s sp = some s' ∧ s'.current = x ∧ s'.enabled = s.enabled ∧
      IsRing s'.next x rest ∧
      ∀ u, (s'.threads u).state = if u = s.current then .dead else (s.threads u).state := by
  have hseek := h.seek_eq hfuel
  rw [List.getLast_cons (List.cons_ne_nil x rest)] at hseek
  have hmem := List.getLast_mem (List.cons_ne_nil x rest)
  have hne : s.current ≠ (x :: rest).getLast (List.cons_ne_nil x rest) :=
    fun heq ↦ (List.nodup_cons.mp h.nodup).1 (heq ▸ hmem)
  have hremoved := h.remove
  generalize (x :: rest).getLast (List.cons_ne_nil x rest) = p at hseek hne hremoved
  have hexit : threadExit fuel s sp =
      some ((((s.setState s.current .dead).setNext p (s.next s.current)).setCurrent
        (s.next s.current)).setSp s.current sp) := by
    simp only [threadExit, next_setState, hseek, Option.map_some, next_setNext,
      Function.update_of_ne hne]
  refine ⟨_, hexit, h.next_head, rfl, ?_, fun u ↦ ?_⟩
  · rwa [next_setSp, next_setCurrent, next_setNext, next_setState]
  · rw [state_setSp, state_setCurrent, state_setNext, state_setState]

/-! ### Every call keeps the invariant -/

theorem inRing_init (s : Sched) (t : ℕ) : InRing (Roster.init s t) [] where
  ring := by
    refine ⟨List.nodup_singleton t, ?_, trivial⟩
    change (Function.update s.threads t _ t).next = t
    rw [Function.update_self]
  enabled := rfl
  created_nodup := List.nodup_singleton t
  mem_iff := fun u ↦ by simp [Roster.init, schedInit, Roster.Live]
  dead_iff := fun u hu ↦ by
    rw [List.mem_singleton.mp hu]
    simp [Roster.init, schedInit, Sched.set]
  exited_subset := fun _ hu ↦ absurd hu List.not_mem_nil
  turns_subset := fun _ hu ↦ hu

section Run

variable {r : Roster} {rest : List ℕ}

/-- The ring and the live threads are permutations of each other. -/
theorem InRing.live_perm (h : InRing r rest) : r.live.Perm (r.sched.current :: rest) := by
  refine (List.perm_ext_iff_of_nodup (h.created_nodup.filter _) h.ring.nodup).mpr fun t ↦ ?_
  rw [h.mem_iff]
  exact Roster.mem_live

/-- The invariant after a switch to the next thread, or without one when there is no other. -/
theorem InRing.yield (h : InRing r rest) (sp : ℕ) :
    ∃ rest', InRing (r.after (schedYield r.sched sp)) rest' ∧
      (r.after (schedYield r.sched sp)).sched.current :: rest' =
        (SchedCall.yield sp).ring (r.sched.current :: rest) ∧
      (r.after (schedYield r.sched sp)).turns =
        r.turns ++ (SchedCall.yield sp).turn (r.sched.current :: rest) := by
  have halone := h.ring.next_head_eq_iff
  cases rest with
  | nil =>
    have hsame : schedYield r.sched sp = r.sched := if_neg (not_not.mpr (halone.mpr rfl))
    have hafter : r.after (schedYield r.sched sp) = r := by
      rw [hsame, Roster.after, if_pos rfl, List.append_nil]
    rw [hafter]
    exact ⟨[], h, rfl, (List.append_nil _).symm⟩
  | cons x rest =>
    have hne : r.sched.next r.sched.current ≠ r.sched.current :=
      fun heq ↦ List.cons_ne_nil x rest (halone.mp heq)
    have hx : r.sched.next r.sched.current = x := h.ring.next_head
    have hswitch : schedYield r.sched sp = switchTo r.sched x sp := by
      rw [schedYield, if_pos hne, hx]
    obtain ⟨hcurrent, henabled, hnext, hstate⟩ := switchTo_spec r.sched x sp
    have hmem : ∀ t, t ∈ x :: (rest ++ [r.sched.current]) ↔ t ∈ r.sched.current :: x :: rest :=
      fun t ↦ (List.perm_append_singleton r.sched.current (x :: rest)).mem_iff
    have hturns : (r.after (switchTo r.sched x sp)).turns = r.turns ++ [x] := by
      rw [Roster.after, hcurrent, if_neg (hx ▸ hne)]
    rw [hswitch]
    refine ⟨rest ++ [r.sched.current], ?_, rfl, hturns⟩
    refine ⟨?_, henabled.trans h.enabled, h.created_nodup, fun t ↦ ?_, fun t ht ↦ ?_,
      h.exited_subset, ?_⟩
    · change IsRing (switchTo r.sched x sp).next x _
      rw [hnext]
      exact h.ring.rotate
    · exact (hmem t).trans (h.mem_iff t)
    · change ((switchTo r.sched x sp).threads t).state = _ ↔ t ∉ x :: (rest ++ [r.sched.current])
      rw [hstate, hmem]
      exact h.dead_iff t ht
    · intro t ht
      rw [hturns, List.mem_append, List.mem_singleton] at ht
      rcases ht with ht | rfl
      · exact h.turns_subset t ht
      · exact ((h.mem_iff t).mp (List.mem_cons_of_mem _ List.mem_cons_self)).1

/-- Every call that is allowed has a result, and keeps the invariant. -/
theorem inRing_run (h : InRing r rest) {call : SchedCall} (hallowed : call.Allowed r) :
    ∃ r' rest', call.run r = some r' ∧ InRing r' rest' ∧
      r'.sched.current :: rest' = call.ring (r.sched.current :: rest) ∧
      r'.turns = r.turns ++ call.turn (r.sched.current :: rest) := by
  cases call with
  | create t stackBase sp =>
    have hfresh : t ∉ r.sched.current :: rest := fun hmem ↦ hallowed ((h.mem_iff t).mp hmem).1
    obtain ⟨hcurrent, henabled, hring, hstate⟩ := threadCreate_spec h.ring hfresh stackBase sp
    have hturns : (r.after (threadCreate r.sched t stackBase sp)).turns = r.turns ++ [] := by
      rw [Roster.after, if_pos hcurrent]
    have hmem : ∀ u, u ∈ r.sched.current :: t :: rest ↔ u = t ∨ u ∈ r.sched.current :: rest :=
      fun u ↦ (List.Perm.swap t r.sched.current rest).mem_iff.trans List.mem_cons
    refine ⟨_, t :: rest, rfl, ?_, rfl, hturns⟩
    refine ⟨hring, henabled.trans h.enabled, List.nodup_cons.mpr ⟨hallowed, h.created_nodup⟩,
      fun u ↦ ?_, fun u hu ↦ ?_, ?_, ?_⟩
    · change u ∈ r.sched.current :: t :: rest ↔ u ∈ t :: r.created ∧ u ∉ r.exited
      rw [hmem, h.mem_iff, List.mem_cons]
      constructor
      · rintro (rfl | ⟨hcreated, hexited⟩)
        · exact ⟨Or.inl rfl, fun hexited ↦ hallowed (h.exited_subset u hexited)⟩
        · exact ⟨Or.inr hcreated, hexited⟩
      · rintro ⟨rfl | hcreated, hexited⟩
        · exact Or.inl rfl
        · exact Or.inr ⟨hcreated, hexited⟩
    · change ((threadCreate r.sched t stackBase sp).threads u).state = _ ↔
        u ∉ r.sched.current :: t :: rest
      rw [hstate, hmem]
      by_cases hut : u = t
      · simp [hut]
      · rw [if_neg hut]
        have hold : u ∈ r.created := (List.mem_cons.mp hu).resolve_left hut
        simp only [hut, false_or]
        exact h.dead_iff u hold
    · exact fun u hu ↦ List.mem_cons_of_mem t (h.exited_subset u hu)
    · intro u hu
      rw [hturns, List.append_nil] at hu
      exact List.mem_cons_of_mem t (h.turns_subset u hu)
  | yield sp =>
    obtain ⟨rest', hring, hlist, hturns⟩ := h.yield sp
    exact ⟨_, rest', rfl, hring, hlist, hturns⟩
  | tick sp =>
    have htick : schedTick r.sched sp = schedYield r.sched sp := by
      rw [schedTick, h.enabled]
      rfl
    have hring' : (SchedCall.tick sp).ring (r.sched.current :: rest) =
        (SchedCall.yield sp).ring (r.sched.current :: rest) := by cases rest <;> rfl
    have hturn' : (SchedCall.tick sp).turn (r.sched.current :: rest) =
        (SchedCall.yield sp).turn (r.sched.current :: rest) := by cases rest <;> rfl
    obtain ⟨rest', hring, hlist, hturns⟩ := h.yield sp
    rw [← htick] at hring hlist hturns
    exact ⟨_, rest', rfl, hring, hlist.trans hring'.symm, hturns.trans (by rw [hturn'])⟩
  | exit sp =>
    have hlength := h.live_perm.length_eq
    have htwo : 2 ≤ (r.sched.current :: rest).length := hlength ▸ hallowed
    cases rest with
    | nil => exact absurd htwo (by simp)
    | cons x rest =>
      have hfuel : (x :: rest).length < r.created.length := by
        have hle := List.length_filter_le (fun t ↦ decide (t ∉ r.exited)) r.created
        rw [List.length_cons] at hlength
        exact lt_of_lt_of_le (Nat.lt_of_lt_of_eq (Nat.lt_succ_self _) hlength.symm) hle
      obtain ⟨s', hexit, hcurrent, henabled, hring, hstate⟩ := threadExit_spec h.ring hfuel sp
      obtain ⟨hhead, -⟩ := List.nodup_cons.mp h.ring.nodup
      have hne : s'.current ≠ r.sched.current := by
        rw [hcurrent]
        exact fun heq ↦ hhead (heq ▸ List.mem_cons_self)
      have hturns : (r.after s').turns = r.turns ++ [x] := by
        rw [Roster.after, if_neg hne, hcurrent]
      have hmem : ∀ u, u ∈ x :: rest ↔ u ∈ r.sched.current :: x :: rest ∧ u ≠ r.sched.current := by
        intro u
        rw [List.mem_cons (a := u) (b := r.sched.current)]
        constructor
        · exact fun hu ↦ ⟨Or.inr hu, fun heq ↦ hhead (heq ▸ hu)⟩
        · exact fun hu ↦ hu.1.resolve_left hu.2
      refine ⟨{ r.after s' with exited := r.sched.current :: r.exited }, rest,
        by rw [SchedCall.run, hexit]; rfl, ?_, ?_, hturns⟩
      · refine ⟨?_, henabled.trans h.enabled, h.created_nodup, fun u ↦ ?_, fun u hu ↦ ?_, ?_, ?_⟩
        · change IsRing s'.next s'.current rest
          rwa [hcurrent]
        · change u ∈ s'.current :: rest ↔ u ∈ r.created ∧ u ∉ r.sched.current :: r.exited
          rw [hcurrent, hmem, h.mem_iff, List.mem_cons, not_or]
          exact ⟨fun hu ↦ ⟨hu.1.1, hu.2, hu.1.2⟩, fun hu ↦ ⟨⟨hu.1, hu.2.2⟩, hu.2.1⟩⟩
        · change (s'.threads u).state = _ ↔ u ∉ s'.current :: rest
          rw [hcurrent, hmem, hstate]
          by_cases hdead : u = r.sched.current
          · simp [hdead]
          · rw [if_neg hdead, h.dead_iff u hu]
            simp only [ne_eq, hdead, not_false_eq_true, and_true]
        · intro u hu
          rcases List.mem_cons.mp hu with rfl | hu
          · exact ((h.mem_iff _).mp List.mem_cons_self).1
          · exact h.exited_subset u hu
        · intro u hu
          change u ∈ (r.after s').turns at hu
          rw [hturns, List.mem_append, List.mem_singleton] at hu
          rcases hu with hu | rfl
          · exact h.turns_subset u hu
          · exact ((h.mem_iff u).mp (List.mem_cons_of_mem _ List.mem_cons_self)).1
      · change s'.current :: rest = x :: rest
        rw [hcurrent]

end Run

end MegKer.Kernel
