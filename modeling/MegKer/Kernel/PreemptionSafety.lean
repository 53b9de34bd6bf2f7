import MegKer.Kernel.Preemption

/-!
# Safety under preemption

A tick between `current = next` and the end of `arch_context_switch` stores the running context in the
slot of the thread that is about to run. Two threads are enough for that
(`context_saved_in_other_slot`). The other danger is a pointer that was read before a tick and is
written after it, when the thread it leads to may have left the ring. The third is a tick inside
`kmalloc`, after which two threads may be given the same memory.

`Machine.Careful` says when a step does none of this, and the main result is that these steps are safe: in
every run of them every state is `Safe`. The invariant (`Guarded`) is that the linked threads form the
ring, that every linked thread which does not run is parked at a context of its own, and that the
running context is in one of three phases: it is the current thread; it has passed control on but still
runs; or it has unlinked itself.
-/

set_option autoImplicit false
set_option relaxedAutoImplicit false

namespace MegKer.Kernel

open Foundation

/-! ### The condition -/

/-- The points at which `current` is already the next thread. -/
def Point.Handover : Point → Bool
  | .switchSp _ _ | .exitSp _ _ | .save _ _ _ | .load _ => true
  | _ => false

/-- A thread that was linked into the ring and not unlinked. -/
def Machine.Linked (m : Machine) (t : ℕ) : Prop := t ∈ m.created ∧ .unlink t ∉ m.events

instance (m : Machine) (t : ℕ) : Decidable (m.Linked t) :=
  inferInstanceAs (Decidable (_ ∧ _))

/-- What a context that is about to write a pointer can rely on. -/
def Machine.Fresh (m : Machine) : Point → Prop
  | .switchCurrent prev next => m.Linked next ∧ next ≠ prev
  | .createLink t head => m.next t = m.next head
  | .exitUnlink dead p next =>
    m.Linked p ∧ m.next p = dead ∧ m.next dead = next ∧ next ≠ dead
  | _ => True

instance (m : Machine) : (point : Point) → Decidable (m.Fresh point) := fun point ↦ by
  cases point <;> dsimp only [Machine.Fresh] <;> infer_instance

/-- A tick that does not fall into a handover or into `kmalloc`, unless there is no thread to switch
to; memory that is left; and writes of pointers that are still right. -/
def Machine.Careful (m : Machine) : Action → Prop
  | .call _ => True
  | .advance => m.Fresh m.running.point
  | .kmalloc address => address ≠ 0
  | .tick => m.running.point.Handover = true ∨ m.running.point.Allocating = true →
    m.next m.sched.current = m.sched.current

instance (m : Machine) : (action : Action) → Decidable (m.Careful action)
  | .call _ => inferInstanceAs (Decidable True)
  | .advance => inferInstanceAs (Decidable (m.Fresh m.running.point))
  | .kmalloc address => inferInstanceAs (Decidable (address ≠ 0))
  | .tick => inferInstanceAs (Decidable (_ → _))

/-! ### A context in the slot of another thread -/

/-- The first thread creates another one and yields to it; the tick comes after `current = next`. -/
def tickInSwitch : List Action :=
  [.call .create, .kmalloc 200, .kmalloc 1000] ++ List.replicate 8 .advance ++
    [.call .yield] ++ List.replicate 7 .advance ++ [.tick]

/-- The tick stores the context of the first thread in the slot of the second one. -/
theorem context_saved_in_other_slot :
    ∃ m, runFrom Machine.step (Machine.boot blankSched 100) tickInSwitch = some m ∧ ¬ Safe m := by
  have hsaves : (runFrom Machine.step (Machine.boot blankSched 100) tickInSwitch).map Machine.saves =
      some [(200, 100)] := by decide +kernel
  obtain ⟨m, hrun, hslots⟩ := Option.map_eq_some_iff.mp hsaves
  refine ⟨m, hrun, fun hsafe ↦ ?_⟩
  have hslot := hsafe.own_slot (200, 100) (hslots ▸ List.mem_singleton_self _)
  exact absurd hslot (by decide)

/-! ### The invariant -/

/-- A thread's slot holds the stack pointer of a context of its own, which was not resumed. -/
structure Parked (m : Machine) (t : ℕ) (point : Point) : Prop where
  frame : m.frames (m.sp t) = { owner := t, point := point }
  sp_lt : m.sp t < m.frameCount
  not_resumed : m.sp t ∉ m.resumed
  sp_eq : m.sp t = m.saved t

/-- A thread that is being created and is not in the ring yet. -/
structure Pending (m : Machine) (creator t : ℕ) : Prop where
  creator_eq : m.creator t = creator
  allocated : t ∈ m.allocated
  not_created : t ∉ m.created

/-- What the registers of a thread hold while it is in the ring. -/
def Registers (m : Machine) (u : ℕ) : Point → Prop
  | .outside | .yieldCurrent | .yieldTest _ | .yieldArgument | .switchPrev _ | .createThread
  | .exitCurrent => True
  | .yieldNext head | .yieldArgumentNext head => head = u
  | .switchCurrent prev _ => prev = u
  | .createStack t | .createId t _ | .createIdUp t _ _ | .createFill t _ _ => Pending m u t
  | .createCurrent t | .createPoint t _ | .createLinkCurrent t =>
    Pending m u t ∧ Parked m t .outside
  | .createNext t head | .createLink t head => head = u ∧ Pending m u t ∧ Parked m t .outside
  | .exitMark dead => dead = u
  | .exitTest dead _ | .exitAdvance dead _ | .exitNext dead _ | .exitUnlink dead _ _ =>
    dead = u ∧ m.state u = .dead
  | .switchSp _ _ | .exitTarget _ | .exitSwitch _ _ | .exitSp _ _ | .save _ _ _ | .load _
  | .hang => False

/-- The running thread has passed control on to the current one. Its own context is saved already
when `left` holds. -/
structure HandsOver (m : Machine) (left : Prop) : Prop where
  linked : m.Linked m.sched.current
  ne : m.sched.current ≠ m.running.owner
  self : m.Linked m.running.owner ∧ (left → Parked m m.running.owner .outside) ∨
    .unlink m.running.owner ∈ m.events

/-- The running thread has unlinked itself. -/
structure Leaves (m : Machine) : Prop where
  current : m.sched.current = m.running.owner
  unlinked : .unlink m.running.owner ∈ m.events
  next : m.Linked (m.next m.running.owner)

/-- The running thread is the current one. -/
structure Runs (m : Machine) (point : Point) : Prop where
  current : m.sched.current = m.running.owner
  linked : m.Linked m.running.owner
  registers : Registers m m.running.owner point

/-- The phase of the running context, by its point. -/
def Phase (m : Machine) : Point → Prop
  | .switchSp prev next =>
    HandsOver m False ∧ m.Linked m.running.owner ∧ prev = m.running.owner ∧ next = m.sched.current
  | .exitSp dead target => HandsOver m False ∧ .unlink m.running.owner ∈ m.events ∧
    dead = m.running.owner ∧ target = m.sched.current
  | .save slot newSp after => HandsOver m False ∧ slot = m.running.owner ∧
    newSp = m.sp m.sched.current ∧ (m.Linked m.running.owner → after = .outside)
  | .load newSp => HandsOver m True ∧ newSp = m.sp m.sched.current
  | .exitTarget dead => Leaves m ∧ dead = m.running.owner
  | .exitSwitch dead target =>
    Leaves m ∧ dead = m.running.owner ∧ target = m.next m.running.owner
  | point => Runs m point

/-- The part of the invariant that does not depend on the point of the running context. -/
structure Stable (m : Machine) : Prop where
  enabled : m.sched.enabled = true
  intact : m.intact = true
  ring : ∃ head rest, IsRing m.sched.next head rest ∧ ∀ t, t ∈ head :: rest ↔ m.Linked t
  created_subset : ∀ t ∈ m.created, t ∈ m.allocated
  unlinked : ∀ t, .unlink t ∈ m.events → t ∈ m.created ∧ m.state t = .dead
  parked : ∀ u, m.Linked u → u ≠ m.running.owner → ∃ point, Parked m u point ∧ Registers m u point
  never_again : NeverAgain m.events
  own_slot : ∀ save ∈ m.saves, save.1 = save.2
  resumed_nodup : m.resumed.Nodup
  resumed_lt : ∀ newSp ∈ m.resumed, newSp < m.frameCount

/-- The invariant. -/
def Guarded (m : Machine) : Prop := Stable m ∧ Phase m m.running.point

section Facts

variable {m m' : Machine} {u t : ℕ} {point : Point}

theorem Pending.not_linked (h : Pending m u t) : ¬ m.Linked t := fun hlinked ↦
  h.not_created hlinked.1

/-- Two threads that are parked have different stack pointers. -/
theorem Parked.sp_ne {other : Point} (h : Parked m u point) (h' : Parked m t other) (hne : u ≠ t) :
    m.sp u ≠ m.sp t := by
  intro heq
  have hframe := h.frame
  rw [heq, h'.frame] at hframe
  exact hne (Context.mk.inj hframe).1.symm

/-- A thread stays parked as long as its slot, its frame and its last save are the same. -/
theorem Parked.keep (h : Parked m t point) (hsp : m'.sp t = m.sp t)
    (hframe : m'.frames (m.sp t) = m.frames (m.sp t)) (hcount : m.frameCount ≤ m'.frameCount)
    (hresumed : m.sp t ∉ m'.resumed) (hsaved : m'.saved t = m.saved t) : Parked m' t point where
  frame := by rw [hsp, hframe, h.frame]
  sp_lt := by
    rw [hsp]
    exact lt_of_lt_of_le h.sp_lt hcount
  not_resumed := by rwa [hsp]
  sp_eq := by rw [hsp, hsaved, h.sp_eq]

theorem Stable.linked_next (h : Stable m) (hu : m.Linked u) : m.Linked (m.next u) := by
  obtain ⟨head, rest, hring, hmem⟩ := h.ring
  exact (hmem _).mp (hring.next_mem ((hmem u).mpr hu))

/-- The ring, read from one of its nodes. -/
theorem Stable.ring_from (h : Stable m) (hu : m.Linked u) :
    ∃ rest, IsRing m.sched.next u rest ∧ ∀ t, t ∈ u :: rest ↔ m.Linked t := by
  obtain ⟨head, rest, hring, hmem⟩ := h.ring
  obtain ⟨others, hfrom, hsame⟩ := hring.from_node ((hmem u).mpr hu)
  exact ⟨others, hfrom, fun t ↦ (hsame t).trans (hmem t)⟩

/-- What a step of another thread must keep for the registers of a thread that is parked. -/
structure Keeps (m m' : Machine) (u : ℕ) : Prop where
  state : m.state u = .dead → m'.state u = .dead
  pending : ∀ t, Pending m u t → Pending m' u t
  parked : ∀ t point, Pending m u t → Parked m t point → Parked m' t point

theorem Registers.keep (h : Registers m u point) (hkeeps : Keeps m m' u) :
    Registers m' u point := by
  cases point
  case createStack t => exact hkeeps.pending t h
  case createId t stackBase => exact hkeeps.pending t h
  case createIdUp t stackBase id => exact hkeeps.pending t h
  case createFill t stackBase id => exact hkeeps.pending t h
  case createCurrent t => exact ⟨hkeeps.pending t h.1, hkeeps.parked t _ h.1 h.2⟩
  case createPoint t next => exact ⟨hkeeps.pending t h.1, hkeeps.parked t _ h.1 h.2⟩
  case createLinkCurrent t => exact ⟨hkeeps.pending t h.1, hkeeps.parked t _ h.1 h.2⟩
  case createNext t head => exact ⟨h.1, hkeeps.pending t h.2.1, hkeeps.parked t _ h.2.1 h.2.2⟩
  case createLink t head => exact ⟨h.1, hkeeps.pending t h.2.1, hkeeps.parked t _ h.2.1 h.2.2⟩
  case exitTest dead p => exact ⟨h.1, hkeeps.state h.2⟩
  case exitAdvance dead p => exact ⟨h.1, hkeeps.state h.2⟩
  case exitNext dead p => exact ⟨h.1, hkeeps.state h.2⟩
  case exitUnlink dead p next => exact ⟨h.1, hkeeps.state h.2⟩
  all_goals exact h

/-- A thread that runs as the current one is at a point where nothing else is asked. -/
theorem Runs.phase (h : Runs m point) : Phase m point := by
  cases point
  case switchSp => exact h.registers.elim
  case exitTarget => exact h.registers.elim
  case exitSwitch => exact h.registers.elim
  case exitSp => exact h.registers.elim
  case save => exact h.registers.elim
  case load => exact h.registers.elim
  all_goals exact h

/-- The current thread runs at every point that is not part of a handover or an exit. -/
theorem Phase.runs (h : Phase m point) (hhandover : point.Handover = false)
    (hexit : ¬ Leaves m) : Runs m point := by
  cases point
  case switchSp => exact absurd hhandover (by simp [Point.Handover])
  case exitSp => exact absurd hhandover (by simp [Point.Handover])
  case save => exact absurd hhandover (by simp [Point.Handover])
  case load => exact absurd hhandover (by simp [Point.Handover])
  case exitTarget => exact absurd h.1 hexit
  case exitSwitch => exact absurd h.1 hexit
  all_goals exact h

end Facts

/-! ### What each effect keeps -/

section Effects

variable {m : Machine} {point : Point}

theorem keeps_goto (u : ℕ) : Keeps m (m.goto point) u :=
  ⟨id, fun _ h ↦ ⟨h.1, h.2, h.3⟩, fun _ _ _ h ↦ ⟨h.1, h.2, h.3, h.4⟩⟩

theorem Stable.goto (h : Stable m) : Stable (m.goto point) where
  enabled := h.enabled
  intact := h.intact
  ring := h.ring
  created_subset := h.created_subset
  unlinked := h.unlinked
  parked := fun u hu hne ↦ by
    obtain ⟨point, hparked, hregisters⟩ := h.parked u hu hne
    exact ⟨point, ⟨hparked.1, hparked.2, hparked.3, hparked.4⟩, hregisters.keep (keeps_goto u)⟩
  never_again := h.never_again
  own_slot := h.own_slot
  resumed_nodup := h.resumed_nodup
  resumed_lt := h.resumed_lt

/-- The current thread moves on within the ring. -/
theorem Runs.goto {next : Point} (h : Runs m point)
    (hregisters : Registers m m.running.owner next) : Phase (m.goto next) next :=
  Runs.phase ⟨h.current, h.linked, hregisters.keep (keeps_goto _)⟩

/-- A step that changes only the threads in memory, and only what the others do not rely on. -/
structure Quiet (m : Machine) (s : Sched) : Prop where
  current : s.current = m.sched.current
  enabled : s.enabled = m.sched.enabled
  next : ∀ u ∈ m.created, s.next u = m.next u
  sp : ∀ u, (s.threads u).sp = m.sp u
  dead : ∀ u, m.state u = .dead → (s.threads u).state = .dead

section Quiet

variable {s : Sched} (hquiet : Quiet m s)

include hquiet

theorem Quiet.parked {t : ℕ} (h : Parked m t point) : Parked { m with sched := s } t point :=
  h.keep (hquiet.sp t) rfl le_rfl h.not_resumed rfl

theorem Quiet.keeps (u : ℕ) : Keeps m { m with sched := s } u :=
  ⟨hquiet.dead u, fun _ h ↦ ⟨h.1, h.2, h.3⟩, fun _ _ _ h ↦ hquiet.parked h⟩

theorem Stable.setSched (h : Stable m) : Stable { m with sched := s } where
  enabled := hquiet.enabled.trans h.enabled
  intact := h.intact
  ring := by
    obtain ⟨head, rest, hring, hmem⟩ := h.ring
    refine ⟨head, rest, ⟨hring.nodup, hring.follows.congr fun u hu ↦ ?_⟩, hmem⟩
    exact hquiet.next u ((hmem u).mp hu).1
  created_subset := h.created_subset
  unlinked := fun t ht ↦ ⟨(h.unlinked t ht).1, hquiet.dead t (h.unlinked t ht).2⟩
  parked := fun u hu hne ↦ by
    obtain ⟨point, hparked, hregisters⟩ := h.parked u hu hne
    exact ⟨point, hquiet.parked hparked, hregisters.keep (hquiet.keeps u)⟩
  never_again := h.never_again
  own_slot := h.own_slot
  resumed_nodup := h.resumed_nodup
  resumed_lt := h.resumed_lt

/-- The current thread takes a quiet step. -/
theorem Runs.setSched {next : Point} (h : Runs m point)
    (hregisters : Registers m m.running.owner next) : Runs { m with sched := s } next :=
  ⟨hquiet.current.trans h.current, h.linked, hregisters.keep (hquiet.keeps _)⟩

end Quiet

section Fill

variable {t stackBase id : ℕ}

theorem sp_fill (u : ℕ) :
    (m.fill t stackBase id).sp u = if u = t then m.frameCount else m.sp u :=
  sp_set m.sched t _ u

theorem state_fill (u : ℕ) :
    (m.fill t stackBase id).state u = if u = t then .ready else m.state u :=
  state_set m.sched t _ u

theorem next_fill : (m.fill t stackBase id).sched.next = m.sched.next :=
  (next_set m.sched t _).trans (Function.update_eq_self _ _)

theorem Parked.fill {u : ℕ} (h : Parked m u point) (hne : u ≠ t) :
    Parked (m.fill t stackBase id) u point :=
  h.keep ((sp_fill u).trans (if_neg hne)) (Function.update_of_ne (Nat.ne_of_lt h.sp_lt) _ _)
    (Nat.le_succ _) h.not_resumed (Function.update_of_ne hne _ _)

/-- The new thread is parked at the start of its code. -/
theorem parked_fill (h : Stable m) : Parked (m.fill t stackBase id) t .outside := by
  have hsp : (m.fill t stackBase id).sp t = m.frameCount := (sp_fill t).trans (if_pos rfl)
  refine ⟨?_, ?_, fun hmem ↦ ?_, ?_⟩
  · rw [hsp]
    exact Function.update_self m.frameCount _ m.frames
  · rw [hsp]
    exact Nat.lt_succ_self _
  · rw [hsp] at hmem
    exact absurd (h.resumed_lt _ hmem) (lt_irrefl _)
  · rw [hsp]
    exact (Function.update_self t m.frameCount m.saved).symm

theorem keeps_fill {u creator : ℕ} (ht : Pending m creator t) (hu : u ∈ m.created)
    (hne : u ≠ creator) : Keeps m (m.fill t stackBase id) u where
  state := fun hdead ↦ by
    have hut : u ≠ t := fun heq ↦ ht.not_created (heq ▸ hu)
    rw [state_fill, if_neg hut]
    exact hdead
  pending := fun _ h ↦ ⟨h.1, h.2, h.3⟩
  parked := fun t' _ h hparked ↦ hparked.fill fun heq ↦
    hne (h.creator_eq.symm.trans (heq ▸ ht.creator_eq))

theorem Stable.fill (h : Stable m) (ht : Pending m m.running.owner t) :
    Stable (m.fill t stackBase id) where
  enabled := h.enabled
  intact := h.intact
  ring := by
    rw [next_fill]
    exact h.ring
  created_subset := h.created_subset
  unlinked := fun u hu ↦ by
    obtain ⟨hcreated, hdead⟩ := h.unlinked u hu
    have hut : u ≠ t := fun heq ↦ ht.not_created (heq ▸ hcreated)
    rw [state_fill, if_neg hut]
    exact ⟨hcreated, hdead⟩
  parked := fun u hu hne ↦ by
    obtain ⟨point, hparked, hregisters⟩ := h.parked u hu hne
    have hut : u ≠ t := fun heq ↦ ht.not_created (heq ▸ hu.1)
    exact ⟨point, hparked.fill hut, hregisters.keep (keeps_fill ht hu.1 hne)⟩
  never_again := h.never_again
  own_slot := h.own_slot
  resumed_nodup := h.resumed_nodup
  resumed_lt := fun newSp hmem ↦ Nat.lt_succ_of_lt (h.resumed_lt newSp hmem)

end Fill

section Link

variable {t : ℕ}

theorem keeps_link {u creator head : ℕ} (ht : Pending m creator t) (hne : u ≠ creator) :
    Keeps m (m.link t head) u where
  state := fun hdead ↦ (state_setNext m.sched head t u).trans hdead
  pending := fun t' h ↦ by
    refine ⟨h.1, h.2, fun hmem ↦ ?_⟩
    rcases List.mem_cons.mp hmem with heq | hmem
    · exact hne (h.creator_eq.symm.trans (heq ▸ ht.creator_eq))
    · exact h.not_created hmem
  parked := fun t' _ _ h ↦ h.keep (sp_setNext m.sched head t t') rfl le_rfl h.not_resumed rfl

/-- Linking the new thread behind the current one. -/
theorem Stable.link (h : Stable m) (howner : m.Linked m.running.owner)
    (ht : Pending m m.running.owner t) (hparked : Parked m t .outside)
    (hnext : m.next t = m.next m.running.owner) : Stable (m.link t m.running.owner) where
  enabled := h.enabled
  intact := h.intact
  ring := by
    obtain ⟨rest, hring, hmem⟩ := h.ring_from howner
    have hinsert := hring.insert fun hin ↦ ht.not_linked ((hmem t).mp hin)
    have hsame : Function.update m.sched.next t (m.sched.next m.running.owner) = m.sched.next :=
      Function.update_eq_self_iff.mpr hnext.symm
    rw [hsame] at hinsert
    refine ⟨m.running.owner, t :: rest, ?_, fun u ↦ ?_⟩
    · change IsRing (m.sched.setNext m.running.owner t).next _ _
      rwa [next_setNext]
    · have hfresh : .unlink t ∉ m.events := fun hin ↦ ht.not_created (h.unlinked t hin).1
      change _ ↔ u ∈ t :: m.created ∧ .unlink u ∉ m.events
      rw [(List.Perm.swap t m.running.owner rest).mem_iff, List.mem_cons, hmem, Machine.Linked,
        List.mem_cons]
      constructor
      · rintro (rfl | ⟨hcreated, hkept⟩)
        · exact ⟨Or.inl rfl, hfresh⟩
        · exact ⟨Or.inr hcreated, hkept⟩
      · rintro ⟨rfl | hcreated, hkept⟩
        · exact Or.inl rfl
        · exact Or.inr ⟨hcreated, hkept⟩
  created_subset := List.forall_mem_cons.mpr ⟨ht.allocated, h.created_subset⟩
  unlinked := fun u hu ↦ by
    obtain ⟨hcreated, hdead⟩ := h.unlinked u hu
    exact ⟨List.mem_cons_of_mem t hcreated, (state_setNext m.sched _ t u).trans hdead⟩
  parked := fun u hu hne ↦ by
    by_cases hut : u = t
    · rw [hut]
      exact ⟨.outside, hparked.keep (sp_setNext m.sched _ t t) rfl le_rfl hparked.not_resumed rfl,
        trivial⟩
    · have hold : m.Linked u := ⟨(List.mem_cons.mp hu.1).resolve_left hut, hu.2⟩
      obtain ⟨point, hpoint, hregisters⟩ := h.parked u hold hne
      exact ⟨point, hpoint.keep (sp_setNext m.sched _ t u) rfl le_rfl hpoint.not_resumed rfl,
        hregisters.keep (keeps_link ht hne)⟩
  never_again := h.never_again
  own_slot := h.own_slot
  resumed_nodup := h.resumed_nodup
  resumed_lt := h.resumed_lt

end Link

section Unlink

variable {p next : ℕ}

theorem linked_unlink {dead u : ℕ} :
    (m.unlink dead p next).Linked u ↔ m.Linked u ∧ u ≠ dead := by
  change u ∈ m.created ∧ .unlink u ∉ .unlink dead :: m.events ↔ _
  rw [List.mem_cons, not_or, Event.unlink.injEq, Machine.Linked]
  exact ⟨fun h ↦ ⟨⟨h.1, h.2.2⟩, h.2.1⟩, fun h ↦ ⟨h.1.1, h.2, h.1.2⟩⟩

theorem keeps_unlink {dead : ℕ} (u : ℕ) : Keeps m (m.unlink dead p next) u where
  state := fun hdead ↦ (state_setNext m.sched p next u).trans hdead
  pending := fun _ h ↦ ⟨h.1, h.2, h.3⟩
  parked := fun t _ _ h ↦ h.keep (sp_setNext m.sched p next t) rfl le_rfl h.not_resumed rfl

/-- The running thread takes itself out of the ring. -/
theorem Stable.unlink (h : Stable m) (howner : m.Linked m.running.owner)
    (hdead : m.state m.running.owner = .dead) (hp : m.Linked p)
    (hnext : m.next p = m.running.owner) (hne : m.next m.running.owner ≠ m.running.owner) :
    Stable (m.unlink m.running.owner p (m.next m.running.owner)) where
  enabled := h.enabled
  intact := h.intact
  ring := by
    obtain ⟨rest, hring, hmem⟩ := h.ring_from howner
    obtain ⟨x, others, hremoved, hrest⟩ := hring.remove_of_next ((hmem p).mpr hp) hnext hne
    refine ⟨x, others, ?_, fun u ↦ ?_⟩
    · change IsRing (m.sched.setNext p (m.next m.running.owner)).next _ _
      rwa [next_setNext]
    · rw [hrest, hmem, linked_unlink]
  created_subset := h.created_subset
  unlinked := fun u hu ↦ by
    have hstate : (m.unlink m.running.owner p (m.next m.running.owner)).state u = m.state u :=
      state_setNext m.sched p _ u
    rw [hstate]
    rcases List.mem_cons.mp hu with heq | hu
    · rw [Event.unlink.inj heq]
      exact ⟨howner.1, hdead⟩
    · exact h.unlinked u hu
  parked := fun u hu hother ↦ by
    obtain ⟨point, hpoint, hregisters⟩ := h.parked u (linked_unlink.mp hu).1 hother
    exact ⟨point, hpoint.keep (sp_setNext m.sched p _ u) rfl le_rfl hpoint.not_resumed rfl,
      hregisters.keep (keeps_unlink u)⟩
  never_again := h.never_again
  own_slot := h.own_slot
  resumed_nodup := h.resumed_nodup
  resumed_lt := h.resumed_lt

end Unlink

section Switch

variable {t : ℕ}

theorem linked_setCurrent {u : ℕ} : (m.setCurrent t).Linked u ↔ m.Linked u := by
  change u ∈ m.created ∧ .unlink u ∉ .switch t :: m.events ↔ _
  rw [List.mem_cons, not_or]
  exact ⟨fun h ↦ ⟨h.1, h.2.2⟩, fun h ↦ ⟨h.1, Event.noConfusion, h.2⟩⟩

theorem keeps_setCurrent (u : ℕ) : Keeps m (m.setCurrent t) u :=
  ⟨id, fun _ h ↦ ⟨h.1, h.2, h.3⟩, fun _ _ _ h ↦ ⟨h.1, h.2, h.3, h.4⟩⟩

theorem unlink_mem_of_switch {u : ℕ} {events : List Event}
    (h : .unlink u ∈ .switch t :: events) : .unlink u ∈ events :=
  (List.mem_cons.mp h).resolve_left Event.noConfusion

theorem Stable.setCurrent (h : Stable m) (ht : m.Linked t) : Stable (m.setCurrent t) where
  enabled := h.enabled
  intact := h.intact
  ring := by
    obtain ⟨head, rest, hring, hmem⟩ := h.ring
    exact ⟨head, rest, hring, fun u ↦ (hmem u).trans linked_setCurrent.symm⟩
  created_subset := h.created_subset
  unlinked := fun u hu ↦ h.unlinked u (unlink_mem_of_switch hu)
  parked := fun u hu hne ↦ by
    obtain ⟨point, hpoint, hregisters⟩ := h.parked u (linked_setCurrent.mp hu) hne
    exact ⟨point, ⟨hpoint.1, hpoint.2, hpoint.3, hpoint.4⟩, hregisters.keep (keeps_setCurrent u)⟩
  never_again := ⟨ht.2, h.never_again⟩
  own_slot := h.own_slot
  resumed_nodup := h.resumed_nodup
  resumed_lt := h.resumed_lt

end Switch

section Leave

variable {after : Point}

theorem Parked.leave {u : ℕ} (h : Parked m u point) (hne : u ≠ m.running.owner) :
    Parked (m.leave m.running.owner after) u point :=
  h.keep ((sp_setSp m.sched _ _ u).trans (if_neg hne))
    (Function.update_of_ne (Nat.ne_of_lt h.sp_lt) _ _) (Nat.le_succ _) h.not_resumed
    (Function.update_of_ne hne _ _)

/-- The running thread is parked where it was left. -/
theorem parked_leave (h : Stable m) :
    Parked (m.leave m.running.owner after) m.running.owner after := by
  have hsp : (m.leave m.running.owner after).sp m.running.owner = m.frameCount :=
    (sp_setSp m.sched _ _ _).trans (if_pos rfl)
  refine ⟨?_, ?_, fun hmem ↦ ?_, ?_⟩
  · rw [hsp]
    exact Function.update_self m.frameCount _ m.frames
  · rw [hsp]
    exact Nat.lt_succ_self _
  · rw [hsp] at hmem
    exact absurd (h.resumed_lt _ hmem) (lt_irrefl _)
  · rw [hsp]
    exact (Function.update_self m.running.owner m.frameCount m.saved).symm

theorem keeps_leave (howner : m.running.owner ∈ m.created) (u : ℕ) :
    Keeps m (m.leave m.running.owner after) u where
  state := fun hdead ↦ (state_setSp m.sched _ _ u).trans hdead
  pending := fun _ h ↦ ⟨h.1, h.2, h.3⟩
  parked := fun _ _ h hparked ↦ hparked.leave fun heq ↦ h.not_created (heq ▸ howner)

theorem Stable.leave (h : Stable m) (howner : m.running.owner ∈ m.created) :
    Stable (m.leave m.running.owner after) where
  enabled := h.enabled
  intact := h.intact
  ring := by
    obtain ⟨head, rest, hring, hmem⟩ := h.ring
    refine ⟨head, rest, ?_, hmem⟩
    change IsRing (m.sched.setSp _ _).next _ _
    rwa [next_setSp]
  created_subset := h.created_subset
  unlinked := fun u hu ↦
    ⟨(h.unlinked u hu).1, (state_setSp m.sched _ _ u).trans (h.unlinked u hu).2⟩
  parked := fun u hu hne ↦ by
    obtain ⟨point, hpoint, hregisters⟩ := h.parked u hu hne
    exact ⟨point, hpoint.leave hne, hregisters.keep (keeps_leave howner u)⟩
  never_again := h.never_again
  own_slot := List.forall_mem_cons.mpr ⟨rfl, h.own_slot⟩
  resumed_nodup := h.resumed_nodup
  resumed_lt := fun newSp hmem ↦ Nat.lt_succ_of_lt (h.resumed_lt newSp hmem)

end Leave

section Resume

variable {t : ℕ}

theorem Parked.resume {u : ℕ} (h : Parked m u point) (hne : m.sp u ≠ m.sp t) :
    Parked (m.resume (m.sp t)) u point :=
  h.keep rfl rfl le_rfl (fun hmem ↦ (List.mem_cons.mp hmem).elim hne h.not_resumed) rfl

theorem keeps_resume (ht : Parked m t point) (hcreated : t ∈ m.created) (u : ℕ) :
    Keeps m (m.resume (m.sp t)) u where
  state := id
  pending := fun _ h ↦ ⟨h.1, h.2, h.3⟩
  parked := fun _ _ h hparked ↦
    hparked.resume (hparked.sp_ne ht fun heq ↦ h.not_created (heq ▸ hcreated))

/-- The thread `t` continues where it is parked, and the thread that ran before stays behind. -/
theorem Stable.resume (h : Stable m) (ht : m.Linked t) (hne : t ≠ m.running.owner)
    (hcurrent : m.sched.current = t)
    (hself : m.Linked m.running.owner →
      ∃ point, Parked m m.running.owner point ∧ Registers m m.running.owner point) :
    Guarded (m.resume (m.sp t)) := by
  obtain ⟨point, hparked, hregisters⟩ := h.parked t ht hne
  have hrunning : (m.resume (m.sp t)).running = { owner := t, point := point } := hparked.frame
  have howner : (m.resume (m.sp t)).running.owner = t := by rw [hrunning]
  have hevents : (m.resume (m.sp t)).events = .switch t :: m.events :=
    congrArg (fun u ↦ Event.switch u :: m.events) howner
  have hlinked : ∀ u, (m.resume (m.sp t)).Linked u ↔ m.Linked u := by
    intro u
    rw [Machine.Linked, hevents]
    exact linked_setCurrent
  have hkeeps := keeps_resume hparked ht.1
  refine ⟨⟨h.enabled, h.intact, ?_, h.created_subset, fun u hu ↦ ?_, fun u hu hother ↦ ?_, ?_, h.own_slot, ?_,
    ?_⟩, ?_⟩
  · obtain ⟨head, rest, hring, hmem⟩ := h.ring
    exact ⟨head, rest, hring, fun u ↦ (hmem u).trans (hlinked u).symm⟩
  · rw [hevents] at hu
    exact h.unlinked u (unlink_mem_of_switch hu)
  · rw [howner] at hother
    rw [hlinked] at hu
    obtain ⟨other, hpoint, hregisters⟩ : ∃ other, Parked m u other ∧ Registers m u other := by
      by_cases hself' : u = m.running.owner
      · rw [hself'] at hu ⊢
        exact hself hu
      · exact h.parked u hu hself'
    exact ⟨other, hpoint.resume (hpoint.sp_ne hparked hother), hregisters.keep (hkeeps u)⟩
  · rw [hevents]
    exact ⟨ht.2, h.never_again⟩
  · exact List.nodup_cons.mpr ⟨hparked.not_resumed, h.resumed_nodup⟩
  · exact List.forall_mem_cons.mpr ⟨hparked.sp_lt, h.resumed_lt⟩
  · rw [hrunning]
    refine Runs.phase ⟨hcurrent.trans howner.symm, ?_, ?_⟩
    · rw [howner]
      exact (hlinked t).mpr ht
    · rw [howner]
      exact hregisters.keep (hkeeps t)

end Resume

end Effects

/-! ### Every careful step keeps the invariant -/

section Step

variable {m : Machine}

/-- The owner of the running context was linked once. -/
theorem Guarded.owner_created (h : Guarded m) : m.running.owner ∈ m.created := by
  obtain ⟨hstable, hphase⟩ := h
  generalize m.running.point = point at hphase
  have hself : ∀ {left}, HandsOver m left → m.running.owner ∈ m.created := fun hover ↦
    hover.self.elim (fun hlinked ↦ hlinked.1.1) fun hunlinked ↦ (hstable.unlinked _ hunlinked).1
  cases point
  case switchSp => exact hself hphase.1
  case exitSp => exact hself hphase.1
  case save => exact hself hphase.1
  case load => exact hself hphase.1
  case exitTarget => exact (hstable.unlinked _ hphase.1.unlinked).1
  case exitSwitch => exact (hstable.unlinked _ hphase.1.unlinked).1
  all_goals exact hphase.linked.1

theorem disturb_eq (h : m.running.point.Allocating = false) : m.disturb = m := by
  simp [Machine.disturb, h]

/-- A tick while the running thread is the current one. -/
theorem Guarded.tick_of_current (h : Guarded m) (hcurrent : m.sched.current = m.running.owner)
    (hnext : m.Linked (m.next m.running.owner))
    (hregisters : m.Linked m.running.owner → Registers m m.running.owner m.running.point)
    (hallocating : m.running.point.Allocating = false) : Guarded m.tick := by
  by_cases hswitch : m.sched.enabled = true ∧ m.next m.sched.current ≠ m.sched.current
  · rw [Machine.tick, if_pos hswitch, disturb_eq hallocating, hcurrent]
    rw [hcurrent] at hswitch
    have hset := h.1.setCurrent hnext
    have hcreated : (m.setCurrent (m.next m.running.owner)).running.owner ∈
        (m.setCurrent (m.next m.running.owner)).created := h.owner_created
    have hleft : Stable ((m.setCurrent (m.next m.running.owner)).leave m.running.owner
        m.running.point) := hset.leave hcreated
    have hsp : ((m.setCurrent (m.next m.running.owner)).leave m.running.owner
        m.running.point).sp (m.next m.running.owner) = m.sp (m.next m.running.owner) :=
      (sp_setSp _ _ _ _).trans (if_neg hswitch.2)
    rw [← hsp]
    refine hleft.resume (linked_setCurrent.mpr hnext) hswitch.2 rfl fun hlinked ↦ ?_
    have hkept : Registers (m.setCurrent (m.next m.running.owner)) m.running.owner
        m.running.point := (hregisters (linked_setCurrent.mp hlinked)).keep (keeps_setCurrent _)
    exact ⟨m.running.point, parked_leave hset, hkept.keep (keeps_leave hcreated _)⟩
  · rw [Machine.tick, if_neg hswitch]
    exact h

/-- A tick that does not fall into a handover or into `kmalloc`, or finds no thread to switch to. -/
theorem Guarded.tick (h : Guarded m) (hcareful : m.Careful .tick) : Guarded m.tick := by
  by_cases halone : m.next m.sched.current = m.sched.current
  · rw [Machine.tick, if_neg fun hswitch ↦ hswitch.2 halone]
    exact h
  · have hhandover : m.running.point.Handover = false :=
      Bool.eq_false_iff.mpr fun hover ↦ halone (hcareful (Or.inl hover))
    have hallocating : m.running.point.Allocating = false :=
      Bool.eq_false_iff.mpr fun hinside ↦ halone (hcareful (Or.inr hinside))
    by_cases hleaves : Leaves m
    · exact h.tick_of_current hleaves.current hleaves.next
        (fun hlinked ↦ absurd hleaves.unlinked hlinked.2) hallocating
    · have hruns := h.2.runs hhandover hleaves
      exact h.tick_of_current hruns.current (h.1.linked_next hruns.linked)
        (fun _ ↦ hruns.registers) hallocating

theorem quiet_nextId (n : ℕ) : Quiet m { m.sched with nextId := n } :=
  ⟨rfl, rfl, fun _ _ ↦ rfl, fun _ ↦ rfl, fun _ hdead ↦ hdead⟩

theorem quiet_setNext {t : ℕ} (ht : t ∉ m.created) (n : ℕ) : Quiet m (m.sched.setNext t n) where
  current := rfl
  enabled := rfl
  next := fun u hu ↦ by
    rw [next_setNext]
    exact Function.update_of_ne (ne_of_mem_of_not_mem hu ht) _ _
  sp := sp_setNext m.sched t n
  dead := fun u hdead ↦ (state_setNext m.sched t n u).trans hdead

theorem quiet_setState (t : ℕ) : Quiet m (m.sched.setState t .dead) where
  current := rfl
  enabled := rfl
  next := fun u _ ↦ congrFun (next_setState m.sched t .dead) u
  sp := sp_setState m.sched t .dead
  dead := fun u hdead ↦ by
    rw [state_setState]
    split_ifs
    · rfl
    · exact hdead

/-- One access of the running context, when the pointers it writes are still right. -/
theorem Guarded.advance (h : Guarded m) (hfresh : m.Fresh m.running.point) :
    Guarded (m.advance m.running.point) := by
  obtain ⟨hstable, hphase⟩ := h
  generalize hpoint : m.running.point = point at hphase hfresh ⊢
  cases point with
  | outside =>
    refine ⟨hstable, ?_⟩
    change Phase m m.running.point
    rwa [hpoint]
  | yieldCurrent => exact ⟨hstable.goto, hphase.goto hphase.current⟩
  | yieldNext head => exact ⟨hstable.goto, hphase.goto trivial⟩
  | yieldTest next =>
    refine ⟨hstable.goto, ?_⟩
    change Phase (m.goto (if next ≠ m.sched.current then Point.yieldArgument else Point.outside))
      (if next ≠ m.sched.current then Point.yieldArgument else Point.outside)
    split_ifs
    · exact hphase.goto trivial
    · exact hphase.goto trivial
  | yieldArgument => exact ⟨hstable.goto, hphase.goto hphase.current⟩
  | yieldArgumentNext head => exact ⟨hstable.goto, hphase.goto trivial⟩
  | switchPrev next => exact ⟨hstable.goto, hphase.goto hphase.current⟩
  | switchCurrent prev next =>
    obtain ⟨hnext, hne⟩ := hfresh
    obtain rfl : prev = m.running.owner := hphase.registers
    have howner : (m.setCurrent next).Linked m.running.owner :=
      linked_setCurrent.mpr hphase.linked
    refine ⟨(hstable.setCurrent hnext).goto, ⟨?_, hne, Or.inl ⟨howner, False.elim⟩⟩, howner, rfl,
      rfl⟩
    exact linked_setCurrent.mpr hnext
  | switchSp prev next =>
    obtain ⟨hover, howner, rfl, rfl⟩ := hphase
    exact ⟨hstable.goto, ⟨hover.linked, hover.ne, Or.inl ⟨howner, False.elim⟩⟩, rfl, rfl,
      fun _ ↦ rfl⟩
  | createThread =>
    refine ⟨hstable, ?_⟩
    change Phase m m.running.point
    rwa [hpoint]
  | createStack t =>
    refine ⟨hstable, ?_⟩
    change Phase m m.running.point
    rwa [hpoint]
  | createId t stackBase => exact ⟨hstable.goto, hphase.goto hphase.registers⟩
  | createIdUp t stackBase id =>
    have hquiet : Quiet m { m.sched with nextId := wrap (id + 1) } := quiet_nextId _
    have hruns : Runs { m with sched := { m.sched with nextId := wrap (id + 1) } }
      (.createFill t stackBase id) := hphase.setSched hquiet hphase.registers
    exact ⟨(hstable.setSched hquiet).goto, hruns.goto hruns.registers⟩
  | createFill t stackBase id =>
    have ht : Pending m m.running.owner t := hphase.registers
    have hruns : Runs (m.fill t stackBase id) (.createCurrent t) :=
      ⟨hphase.current, hphase.linked, ⟨ht.1, ht.2, ht.3⟩, parked_fill hstable⟩
    exact ⟨(hstable.fill ht).goto, hruns.goto hruns.registers⟩
  | createCurrent t => exact ⟨hstable.goto, hphase.goto ⟨hphase.current, hphase.registers⟩⟩
  | createNext t head => exact ⟨hstable.goto, hphase.goto hphase.registers.2⟩
  | createPoint t next =>
    have hquiet : Quiet m (m.sched.setNext t next) :=
      quiet_setNext hphase.registers.1.not_created next
    have hruns : Runs { m with sched := m.sched.setNext t next } (.createLinkCurrent t) :=
      hphase.setSched hquiet hphase.registers
    exact ⟨(hstable.setSched hquiet).goto, hruns.goto hruns.registers⟩
  | createLinkCurrent t => exact ⟨hstable.goto, hphase.goto ⟨hphase.current, hphase.registers⟩⟩
  | createLink t head =>
    obtain ⟨rfl, ht, hparked⟩ := hphase.registers
    have hruns : Runs (m.link t m.running.owner) .outside :=
      ⟨hphase.current, ⟨List.mem_cons_of_mem t hphase.linked.1, hphase.linked.2⟩, trivial⟩
    exact ⟨(hstable.link hphase.linked ht hparked hfresh).goto, hruns.goto trivial⟩
  | exitCurrent => exact ⟨hstable.goto, hphase.goto hphase.current⟩
  | exitMark dead =>
    obtain rfl : dead = m.running.owner := hphase.registers
    have hquiet : Quiet m (m.sched.setState m.running.owner .dead) := quiet_setState _
    have hdead : Machine.state { m with sched := m.sched.setState m.running.owner .dead }
        m.running.owner = .dead := (state_setState _ _ _ _).trans (if_pos rfl)
    have hruns : Runs { m with sched := m.sched.setState m.running.owner .dead }
      (.exitTest m.running.owner m.running.owner) := ⟨hphase.current, hphase.linked, rfl, hdead⟩
    exact ⟨(hstable.setSched hquiet).goto, hruns.goto hruns.registers⟩
  | exitTest dead p =>
    refine ⟨hstable.goto, ?_⟩
    change Phase (m.goto (if m.next p ≠ dead then .exitAdvance dead p else .exitNext dead p))
      (if m.next p ≠ dead then .exitAdvance dead p else .exitNext dead p)
    split_ifs
    · exact hphase.goto hphase.registers
    · exact hphase.goto hphase.registers
  | exitAdvance dead p => exact ⟨hstable.goto, hphase.goto hphase.registers⟩
  | exitNext dead p => exact ⟨hstable.goto, hphase.goto hphase.registers⟩
  | exitUnlink dead p next =>
    obtain ⟨rfl, hdead⟩ := hphase.registers
    obtain ⟨hp, hnext, rfl, hne⟩ := hfresh
    have hunlinked := hstable.unlink hphase.linked hdead hp hnext hne
    refine ⟨hunlinked.goto, ⟨hphase.current, List.mem_cons_self, ?_⟩, rfl⟩
    have hkept : (m.sched.setNext p (m.next m.running.owner)).next m.running.owner =
        m.next m.running.owner := by
      rw [next_setNext]
      by_cases heq : m.running.owner = p
      · rw [← heq, Function.update_self]
      · exact Function.update_of_ne heq _ _
    change (m.unlink m.running.owner p (m.next m.running.owner)).Linked
      ((m.sched.setNext p (m.next m.running.owner)).next m.running.owner)
    rw [hkept]
    exact linked_unlink.mpr ⟨hstable.linked_next hphase.linked, hne⟩
  | exitTarget dead =>
    obtain ⟨hleaves, rfl⟩ := hphase
    exact ⟨hstable.goto, ⟨hleaves.1, hleaves.2, hleaves.3⟩, rfl, rfl⟩
  | exitSwitch dead target =>
    obtain ⟨hleaves, rfl, rfl⟩ := hphase
    have hne : m.next m.running.owner ≠ m.running.owner := fun heq ↦
      (heq ▸ hleaves.next).2 hleaves.unlinked
    have hgone : .unlink m.running.owner ∈ (m.setCurrent (m.next m.running.owner)).events :=
      List.mem_cons_of_mem _ hleaves.unlinked
    refine ⟨(hstable.setCurrent hleaves.next).goto, ⟨?_, hne, Or.inr hgone⟩, hgone, rfl, rfl⟩
    exact linked_setCurrent.mpr hleaves.next
  | exitSp dead target =>
    obtain ⟨hover, hgone, rfl, rfl⟩ := hphase
    exact ⟨hstable.goto, ⟨hover.linked, hover.ne, Or.inr hgone⟩, rfl, rfl,
      fun hlinked ↦ absurd hgone hlinked.2⟩
  | save slot newSp after =>
    obtain ⟨hover, rfl, rfl, hafter⟩ := hphase
    have hcreated : m.running.owner ∈ m.created :=
      hover.self.elim (fun hself ↦ hself.1.1) fun hgone ↦ (hstable.unlinked _ hgone).1
    refine ⟨(hstable.leave hcreated).goto, ⟨hover.linked, hover.ne, ?_⟩, ?_⟩
    · rcases hover.self with ⟨hlinked, -⟩ | hgone
      · obtain rfl := hafter hlinked
        obtain ⟨hframe, hlt, hresumed, heq⟩ := parked_leave hstable
        exact Or.inl ⟨hlinked, fun _ ↦ ⟨hframe, hlt, hresumed, heq⟩⟩
      · exact Or.inr hgone
    · exact ((sp_setSp m.sched _ _ _).trans (if_neg hover.ne)).symm
  | load newSp =>
    obtain ⟨hover, rfl⟩ := hphase
    refine hstable.resume hover.linked hover.ne rfl fun hlinked ↦ ?_
    rcases hover.self with ⟨-, hparked⟩ | hgone
    · exact ⟨.outside, hparked trivial, trivial⟩
    · exact absurd hgone hlinked.2
  | hang => exact hphase.registers.elim

/-- A thread starts a call of the scheduler. -/
theorem Guarded.begin (c : ThreadCall) (h : Guarded m) (hpoint : m.running.point = .outside) :
    Guarded (m.begin c) := by
  obtain ⟨hstable, hphase⟩ := h
  rw [hpoint] at hphase
  have hruns : Runs m .outside := hphase
  cases c with
  | yield => exact ⟨hstable.goto, hruns.goto trivial⟩
  | create => exact ⟨hstable.goto, hruns.goto trivial⟩
  | exit => exact ⟨hstable.goto, hruns.goto trivial⟩

section Allocate

variable {address : ℕ} (haddress : address ∉ m.allocated)

include haddress

theorem keeps_allocate (u : ℕ) : Keeps m (m.allocate address) u := by
  refine ⟨id, fun t h ↦ ⟨?_, List.mem_cons_of_mem address h.2, h.3⟩, fun _ _ _ h ↦
    ⟨h.1, h.2, h.3, h.4⟩⟩
  have hne : t ≠ address := fun heq ↦ haddress (heq ▸ h.2)
  exact (Function.update_of_ne hne _ _).trans h.1

theorem Stable.allocate (h : Stable m) : Stable (m.allocate address) where
  enabled := h.enabled
  intact := h.intact
  ring := h.ring
  created_subset := fun u hu ↦ List.mem_cons_of_mem address (h.created_subset u hu)
  unlinked := h.unlinked
  parked := fun u hu hne ↦ by
    obtain ⟨point, hparked, hregisters⟩ := h.parked u hu hne
    exact ⟨point, ⟨hparked.1, hparked.2, hparked.3, hparked.4⟩,
      hregisters.keep (keeps_allocate haddress u)⟩
  never_again := h.never_again
  own_slot := h.own_slot
  resumed_nodup := h.resumed_nodup
  resumed_lt := h.resumed_lt

end Allocate

/-- A call of `kmalloc` that was left alone has new memory to give. -/
theorem Guarded.kmalloc {address : ℕ} {m' : Machine} (h : Guarded m) (haddress : address ≠ 0)
    (hreturn : m.kmalloc address = some m') : Guarded m' := by
  obtain ⟨hstable, hphase⟩ := h
  rw [Machine.kmalloc] at hreturn
  split_ifs at hreturn with hused
  have hfresh : address ∉ m.allocated := fun hmem ↦ hused ⟨hstable.intact, haddress, hmem⟩
  generalize m.running.point = point at hphase hreturn
  cases point with
  | createThread =>
    obtain rfl := Option.some.inj hreturn
    have hpending : Pending (m.allocate address) m.running.owner address :=
      ⟨Function.update_self _ _ _, List.mem_cons_self, fun hcreated ↦
        hfresh (hstable.created_subset address hcreated)⟩
    have hruns : Runs (m.allocate address) (.createStack address) :=
      ⟨hphase.current, hphase.linked, hpending⟩
    exact ⟨(hstable.allocate hfresh).goto, hruns.goto hruns.registers⟩
  | createStack t =>
    obtain rfl := Option.some.inj hreturn
    have hpending : Pending (m.allocate address) m.running.owner t :=
      (keeps_allocate hfresh _).pending t hphase.registers
    have hruns : Runs (m.allocate address) (.createId t address) :=
      ⟨hphase.current, hphase.linked, hpending⟩
    exact ⟨(hstable.allocate hfresh).goto, hruns.goto hruns.registers⟩
  | _ => cases hreturn

/-- The step lemma. -/
theorem guarded_step {action : Action} {m' : Machine} (h : Guarded m)
    (hcareful : m.Careful action) (hstep : m.step action = some m') : Guarded m' := by
  cases action with
  | call c =>
    rw [Machine.step] at hstep
    split_ifs at hstep with hpoint
    obtain rfl := Option.some.inj hstep
    exact h.begin c hpoint
  | advance =>
    obtain rfl := Option.some.inj hstep
    exact h.advance hcareful
  | kmalloc address => exact h.kmalloc hcareful hstep
  | tick =>
    obtain rfl := Option.some.inj hstep
    exact h.tick hcareful

end Step

/-! ### Whole runs -/

theorem guarded_boot (s : Sched) (t : ℕ) : Guarded (Machine.boot s t) := by
  have hlinked : ∀ u, (Machine.boot s t).Linked u ↔ u = t := fun u ↦ by
    change u ∈ [t] ∧ Event.unlink u ∉ [] ↔ _
    simp
  refine ⟨⟨rfl, rfl, ⟨t, [], (inRing_init s t).ring, fun u ↦ ?_⟩, fun _ hu ↦ hu, fun u hu ↦ ?_,
    fun u hu hne ↦ ?_, trivial, fun _ hmem ↦ ?_, List.nodup_nil, fun _ hmem ↦ ?_⟩, ?_⟩
  · rw [hlinked, List.mem_singleton]
  · exact absurd hu List.not_mem_nil
  · exact absurd ((hlinked u).mp hu) hne
  · exact absurd hmem List.not_mem_nil
  · exact absurd hmem List.not_mem_nil
  · exact Runs.phase ⟨rfl, (hlinked t).mpr rfl, trivial⟩

/-- The pointer of the current thread leads into the ring in every phase. -/
theorem Guarded.linked_next_current {m : Machine} (h : Guarded m) :
    m.Linked (m.next m.sched.current) := by
  obtain ⟨hstable, hphase⟩ := h
  generalize m.running.point = point at hphase
  have hleaves : Leaves m → m.Linked (m.next m.sched.current) := fun h ↦ h.current ▸ h.next
  cases point
  case switchSp => exact hstable.linked_next hphase.1.linked
  case exitSp => exact hstable.linked_next hphase.1.linked
  case save => exact hstable.linked_next hphase.1.linked
  case load => exact hstable.linked_next hphase.1.linked
  case exitTarget => exact hleaves hphase.1
  case exitSwitch => exact hleaves hphase.1
  all_goals exact hstable.linked_next (hphase.current ▸ hphase.linked)

theorem Guarded.safe {m : Machine} (h : Guarded m) : Safe m := by
  have hlive : ∀ t, m.Live t → m.Linked t := fun t ht ↦
    ⟨ht.1, fun hgone ↦ ht.2 (h.1.unlinked t hgone).2⟩
  refine ⟨h.1.never_again, ?_, fun t ht hne ↦ ?_, h.1.own_slot, h.1.resumed_nodup⟩
  · obtain ⟨head, rest, hring, hmem⟩ := h.1.ring
    exact ⟨head, rest, hring, (hmem _).mpr h.linked_next_current, fun t ht ↦
      (hmem t).mpr (hlive t ht)⟩
  · obtain ⟨point, hparked, -⟩ := h.1.parked t (hlive t ht) hne
    exact hparked.sp_eq

/-- In every run of careful steps, every state is safe. -/
theorem safe_of_careful (s : Sched) (t : ℕ) (actions : List Action) (m : Machine)
    (hcareful : AlongRun Machine.step Machine.Careful (Machine.boot s t) actions)
    (hrun : runFrom Machine.step (Machine.boot s t) actions = some m) : Safe m :=
  (invariant_runFrom guarded_step (guarded_boot s t) hcareful hrun).safe

/-- A thread creates another one, which is preempted, and exits. -/
def careful : List Action :=
  [.call .create, .kmalloc 200, .kmalloc 1000] ++ List.replicate 8 .advance ++ [.tick, .call .yield] ++
    List.replicate 3 .advance ++ [.tick, .call .exit] ++ List.replicate 13 .advance

theorem safe_of_careful_two_threads :
    ∃ m, runFrom Machine.step (Machine.boot blankSched 100) careful = some m ∧
      m.created = [200, 100] ∧ Safe m := by
  have hcareful : AlongRun Machine.step Machine.Careful (Machine.boot blankSched 100) careful := by
    decide +kernel
  have hcreated : (runFrom Machine.step (Machine.boot blankSched 100) careful).map Machine.created =
      some [200, 100] := by decide +kernel
  obtain ⟨m, hrun, hm⟩ := Option.map_eq_some_iff.mp hcreated
  exact ⟨m, hrun, hm, safe_of_careful blankSched 100 careful m hcareful hrun⟩

end MegKer.Kernel
