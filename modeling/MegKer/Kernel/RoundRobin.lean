import MegKer.Kernel.Scheduler

/-!
# Round robin

What the ring of threads is for: every thread gets its turn. Fairness is a statement about a thread
`T` and the turns since it was last switched away from. The invariant (`Rotation`) splits the ring at
`T`: between the current thread and `T` are the threads that have not had a turn since, and the current
thread and those behind `T` have had exactly one. Threads that are created are inserted before `T`, and
threads that exit are the current one; neither disturbs the split.
-/

set_option autoImplicit false
set_option relaxedAutoImplicit false

namespace MegKer.Kernel

open Foundation

/-! ### The ring, seen from one thread -/

/-- The ring, and the turns since `T` was the current thread. -/
inductive Rotation (T : ℕ) : (ring between : List ℕ) → Prop
  | here (rest : List ℕ) : Rotation T (T :: rest) []
  | away {current : ℕ} {pending done between : List ℕ} (hpending : ∀ u ∈ pending, u ∉ between)
    (hdone : ∀ u ∈ current :: done, between.count u = 1) :
    Rotation T (current :: (pending ++ T :: done)) between
  | gone {ring between : List ℕ} (hgone : T ∉ ring) : Rotation T ring between

section Step

variable {T : ℕ} {ring between : List ℕ}

/-- Moving on to the next thread, which is not `T`. The thread that was current goes to the end of the
ring (`left = [head]`), or leaves it (`left = []`). -/
theorem Rotation.next {head x : ℕ} {rest left : List ℕ} (h : Rotation T (head :: x :: rest) between)
    (hnodup : (head :: x :: rest).Nodup) (hleft : left = [head] ∨ left = []) (hx : x ≠ T) :
    Rotation T (x :: (rest ++ left)) (between ++ [x]) := by
  obtain ⟨hhead, hrest⟩ := List.nodup_cons.mp hnodup
  obtain ⟨hxrest, -⟩ := List.nodup_cons.mp hrest
  have hleftMem : ∀ u ∈ left, u = head := by
    rcases hleft with rfl | rfl
    · exact fun u hu ↦ List.mem_singleton.mp hu
    · exact fun u hu ↦ absurd hu List.not_mem_nil
  generalize hring : head :: x :: rest = ring at h
  cases h with
  | here others =>
    obtain ⟨rfl, rfl⟩ := List.cons.inj hring
    rcases hleft with rfl | rfl
    · refine Rotation.away (fun u hu hmem ↦ ?_) fun u hu ↦ ?_
      · rw [List.nil_append, List.mem_singleton] at hmem
        exact hxrest (hmem ▸ hu)
      · rw [List.mem_singleton.mp hu]
        simp
    · refine Rotation.gone fun hmem ↦ hhead ?_
      rwa [List.append_nil] at hmem
  | @away current pending done between hpending hdone =>
    obtain ⟨rfl, hsplit⟩ := List.cons.inj hring
    cases pending with
    | nil => exact absurd (List.cons.inj hsplit).1 hx
    | cons y pending =>
      rw [List.cons_append] at hsplit
      obtain ⟨rfl, rfl⟩ := List.cons.inj hsplit
      rw [List.append_assoc, List.cons_append]
      obtain ⟨hfresh, hpendingRest⟩ := List.forall_mem_cons.mp hpending
      refine Rotation.away (fun u hu hmem ↦ ?_) fun u hu ↦ ?_
      · rcases List.mem_append.mp hmem with hmem | hmem
        · exact hpendingRest u hu hmem
        · exact hxrest (List.mem_append_left _ (List.mem_singleton.mp hmem ▸ hu))
      · rw [List.count_append]
        rcases List.mem_cons.mp hu with rfl | hu
        · rw [List.count_eq_zero.mpr hfresh]
          simp
        · have hne : u ≠ x := by
            intro heq
            rcases List.mem_append.mp hu with hold | hold
            · exact hxrest (heq ▸ List.mem_append_right _ (List.mem_cons_of_mem _ hold))
            · exact hhead (hleftMem u hold ▸ heq ▸ List.mem_cons_self)
          have hcount : between.count u = 1 := by
            rcases List.mem_append.mp hu with hu | hu
            · exact hdone u (List.mem_cons_of_mem _ hu)
            · exact hdone u (hleftMem u hu ▸ List.mem_cons_self)
          rw [hcount, List.count_eq_zero.mpr fun hmem ↦ hne (List.mem_singleton.mp hmem)]
  | gone hgone =>
    refine Rotation.gone fun hmem ↦ hgone ?_
    rw [← hring]
    rcases List.mem_cons.mp hmem with rfl | hmem
    · exact List.mem_cons_of_mem _ List.mem_cons_self
    · rcases List.mem_append.mp hmem with hmem | hmem
      · exact List.mem_cons_of_mem _ (List.mem_cons_of_mem _ hmem)
      · exact hleftMem T hmem ▸ List.mem_cons_self

/-- Inserting a new thread behind the current one. -/
theorem Rotation.insert {head t : ℕ} {rest : List ℕ} (h : Rotation T (head :: rest) between)
    (ht : t ∉ between) (hne : t ≠ T) : Rotation T (head :: t :: rest) between := by
  generalize hring : head :: rest = ring at h
  cases h with
  | here others =>
    obtain ⟨rfl, rfl⟩ := List.cons.inj hring
    exact Rotation.here (t :: rest)
  | away hpending hdone =>
    obtain ⟨rfl, rfl⟩ := List.cons.inj hring
    exact Rotation.away (List.forall_mem_cons.mpr ⟨ht, hpending⟩) hdone
  | gone hgone =>
    refine Rotation.gone fun hmem ↦ hgone ?_
    rw [← hring]
    rcases List.mem_cons.mp hmem with rfl | hmem
    · exact List.mem_cons_self
    · exact List.mem_cons_of_mem _ ((List.mem_cons.mp hmem).resolve_left hne.symm)

/-- A call that does not start a turn of `T` keeps the split. -/
theorem Rotation.step (h : Rotation T ring between) (hnodup : ring.Nodup) {call : SchedCall}
    (hfresh : ∀ t stackBase sp, call = .create t stackBase sp → t ∉ between ∧ t ≠ T)
    (hturn : T ∉ call.turn ring) : Rotation T (call.ring ring) (between ++ call.turn ring) := by
  cases ring with
  | nil => cases call <;> exact Rotation.gone List.not_mem_nil
  | cons head rest =>
    cases call with
    | create t stackBase sp =>
      obtain ⟨ht, hne⟩ := hfresh t stackBase sp rfl
      change Rotation T (head :: t :: rest) (between ++ [])
      rw [List.append_nil]
      exact h.insert ht hne
    | yield sp =>
      cases rest with
      | nil => exact (List.append_nil between).symm ▸ h
      | cons x rest =>
        exact h.next hnodup (Or.inl rfl) fun heq ↦ hturn (heq ▸ List.mem_singleton_self x)
    | tick sp =>
      cases rest with
      | nil => exact (List.append_nil between).symm ▸ h
      | cons x rest =>
        exact h.next hnodup (Or.inl rfl) fun heq ↦ hturn (heq ▸ List.mem_singleton_self x)
    | exit sp =>
      cases rest with
      | nil => exact (List.append_nil between).symm ▸ h
      | cons x rest =>
        have hnext := h.next hnodup (Or.inr rfl) fun heq ↦ hturn (heq ▸ List.mem_singleton_self x)
        rwa [List.append_nil] at hnext

/-- When the turn of `T` comes, every other thread in the ring has had exactly one. -/
theorem Rotation.complete (h : Rotation T ring between) (hnodup : ring.Nodup) {call : SchedCall}
    (hturn : call.turn ring = [T]) {u : ℕ} (hu : u ∈ call.ring ring) (hne : u ≠ T) :
    between.count u = 1 := by
  obtain ⟨head, rest, rfl, hmem⟩ : ∃ head rest, ring = head :: T :: rest ∧
      (u ∈ call.ring ring → u ∈ head :: T :: rest) := by
    cases ring with
    | nil => cases call <;> exact absurd hturn (by simp [SchedCall.turn])
    | cons head rest =>
      cases rest with
      | nil => cases call <;> exact absurd hturn (by simp [SchedCall.turn])
      | cons x rest =>
        cases call with
        | create t stackBase sp => exact absurd hturn (by simp [SchedCall.turn])
        | yield sp =>
          obtain rfl : x = T := List.singleton_inj.mp hturn
          exact ⟨head, rest, rfl, (List.perm_append_singleton head (x :: rest)).mem_iff.mp⟩
        | tick sp =>
          obtain rfl : x = T := List.singleton_inj.mp hturn
          exact ⟨head, rest, rfl, (List.perm_append_singleton head (x :: rest)).mem_iff.mp⟩
        | exit sp =>
          obtain rfl : x = T := List.singleton_inj.mp hturn
          exact ⟨head, rest, rfl, List.mem_cons_of_mem head⟩
  have hmem := hmem hu
  generalize hring : head :: T :: rest = ring at h
  cases h with
  | here others =>
    obtain ⟨rfl, -⟩ := List.cons.inj hring
    exact absurd List.mem_cons_self (List.nodup_cons.mp hnodup).1
  | @away current pending done between hpending hdone =>
    obtain ⟨rfl, hsplit⟩ := List.cons.inj hring
    cases pending with
    | nil =>
      obtain ⟨-, rfl⟩ := List.cons.inj hsplit
      refine hdone u ?_
      rcases List.mem_cons.mp hmem with rfl | hmem
      · exact List.mem_cons_self
      · exact List.mem_cons_of_mem _ ((List.mem_cons.mp hmem).resolve_left hne)
    | cons y pending =>
      rw [List.cons_append] at hsplit
      obtain ⟨rfl, rfl⟩ := List.cons.inj hsplit
      have htwice : T ∉ pending ++ T :: done :=
        (List.nodup_cons.mp (List.nodup_cons.mp hnodup).2).1
      exact absurd (List.mem_append_right _ List.mem_cons_self) htwice
  | gone hgone => exact absurd (hring ▸ List.mem_cons_of_mem _ List.mem_cons_self) hgone

end Step

/-! ### Whole runs -/

theorem runs_cons {r r' : Roster} {call : SchedCall} {calls : List SchedCall}
    (h : runs r (call :: calls) = some r') :
    ∃ next, call.run r = some next ∧ runs next calls = some r' :=
  Option.bind_eq_some_iff.mp h

theorem runs_append {calls more : List SchedCall} {r r' : Roster} (h : runs r calls = some r') :
    runs r (calls ++ more) = runs r' more := by
  induction calls generalizing r with
  | nil =>
    obtain rfl := Option.some.inj h
    rfl
  | cons call calls ih =>
    obtain ⟨next, hrun, hruns⟩ := runs_cons h
    rw [List.cons_append, runs, hrun]
    exact ih hruns

theorem schedulable_append {calls more : List SchedCall} {r r' : Roster}
    (h : Schedulable r (calls ++ more)) (hruns : runs r calls = some r') : Schedulable r' more := by
  induction calls generalizing r with
  | nil =>
    obtain rfl := Option.some.inj hruns
    exact h
  | cons call calls ih =>
    obtain ⟨next, hrun, hruns⟩ := runs_cons hruns
    exact ih (h.2 next hrun) hruns

theorem Schedulable.left {calls more : List SchedCall} {r : Roster}
    (h : Schedulable r (calls ++ more)) : Schedulable r calls := by
  induction calls generalizing r with
  | nil => trivial
  | cons call calls ih => exact ⟨h.1, fun r' hrun ↦ ih (h.2 r' hrun)⟩

/-- What a call adds to the history of the scheduler. -/
theorem history_run {call : SchedCall} {r r' : Roster} (h : call.run r = some r') :
    r.created ⊆ r'.created ∧ ∃ after, r'.turns = r.turns ++ after := by
  cases call with
  | create t stackBase sp =>
    obtain rfl := Option.some.inj h
    exact ⟨List.subset_cons_self t r.created, _, rfl⟩
  | yield sp =>
    obtain rfl := Option.some.inj h
    exact ⟨List.Subset.refl _, _, rfl⟩
  | tick sp =>
    obtain rfl := Option.some.inj h
    exact ⟨List.Subset.refl _, _, rfl⟩
  | exit sp =>
    obtain ⟨s, -, rfl⟩ := Option.map_eq_some_iff.mp h
    exact ⟨List.Subset.refl _, _, rfl⟩

/-- Runs only add to the turns. -/
theorem turns_runs {calls : List SchedCall} {r r' : Roster} (h : runs r calls = some r') :
    ∃ after, r'.turns = r.turns ++ after := by
  induction calls generalizing r with
  | nil =>
    obtain rfl := Option.some.inj h
    exact ⟨[], (List.append_nil _).symm⟩
  | cons call calls ih =>
    obtain ⟨next, hrun, hruns⟩ := runs_cons h
    obtain ⟨-, first, hfirst⟩ := history_run hrun
    obtain ⟨after, hafter⟩ := ih hruns
    exact ⟨first ++ after, by rw [hafter, hfirst, List.append_assoc]⟩

/-- Every sequence of allowed calls has a result, and keeps the invariant. -/
theorem inRing_runs (calls : List SchedCall) :
    ∀ {r : Roster} {rest : List ℕ}, InRing r rest → Schedulable r calls →
      ∃ r' rest', runs r calls = some r' ∧ InRing r' rest' := by
  induction calls with
  | nil => exact fun h _ ↦ ⟨_, _, rfl, h⟩
  | cons call calls ih =>
    intro r rest h hcalls
    obtain ⟨hallowed, hrest⟩ := hcalls
    obtain ⟨next, rest', hrun, hring, -⟩ := inRing_run h hallowed
    obtain ⟨r', rest'', hruns, hring'⟩ := ih hring (hrest next hrun)
    exact ⟨r', rest'', by rw [runs, hrun]; exact hruns, hring'⟩

/-- A run in which no turn of `T` starts keeps the split. -/
theorem rotation_runs {T : ℕ} (calls : List SchedCall) :
    ∀ {r r' : Roster} {rest between more : List ℕ}, InRing r rest → T ∈ r.created →
      (∀ u ∈ between, u ∈ r.created) → Rotation T (r.sched.current :: rest) between →
      Schedulable r calls → runs r calls = some r' → r'.turns = r.turns ++ more → T ∉ more →
        ∃ rest', InRing r' rest' ∧ Rotation T (r'.sched.current :: rest') (between ++ more) := by
  induction calls with
  | nil =>
    intro r r' rest between more h _ _ hrotation _ hruns hturns _
    obtain rfl := Option.some.inj hruns
    have hnone : more = [] := by simpa using hturns
    exact ⟨rest, h, by rwa [hnone, List.append_nil]⟩
  | cons call calls ih =>
    intro r r' rest between more h hcreated hbetween hrotation hcalls hruns hturns hT
    obtain ⟨hallowed, hrest⟩ := hcalls
    obtain ⟨next, hrun, hruns⟩ := runs_cons hruns
    obtain ⟨next', rest', hrun', hring, hlist, hnextTurns⟩ := inRing_run h hallowed
    obtain rfl : next' = next := Option.some.inj (hrun'.symm.trans hrun)
    obtain ⟨hkept, -⟩ := history_run hrun
    obtain ⟨after, hafter⟩ := turns_runs hruns
    have hmore : more = call.turn (r.sched.current :: rest) ++ after := by
      rw [hafter, hnextTurns, List.append_assoc] at hturns
      exact (List.append_cancel_left hturns).symm
    obtain ⟨hnow, hlater⟩ : T ∉ call.turn (r.sched.current :: rest) ∧ T ∉ after :=
      not_or.mp fun hmem ↦ hT (hmore ▸ List.mem_append.mpr hmem)
    have hfresh : ∀ t stackBase sp, call = .create t stackBase sp → t ∉ between ∧ t ≠ T := by
      rintro t stackBase sp rfl
      exact ⟨fun hmem ↦ hallowed (hbetween t hmem), fun heq ↦ hallowed (heq ▸ hcreated)⟩
    have hstep := hrotation.step h.ring.nodup hfresh hnow
    have hbetween' : ∀ u ∈ between ++ call.turn (r.sched.current :: rest), u ∈ next'.created := by
      intro u hu
      rcases List.mem_append.mp hu with hu | hu
      · exact hkept (hbetween u hu)
      · exact hring.turns_subset u (hnextTurns ▸ List.mem_append_right _ hu)
    rw [← hlist] at hstep
    obtain ⟨rest'', hring', hrotation'⟩ :=
      ih hring (hkept hcreated) hbetween' hstep (hrest _ hrun) hruns hafter hlater
    exact ⟨rest'', hring', by rwa [hmore, ← List.append_assoc]⟩

/-! ### The ring and the turns, over every run -/

/-- The threads in the ring from `current` are the live threads, each once, and the dead threads are
those outside it. -/
def RingOfLive (r : Roster) : Prop :=
  ∃ rest, IsRing r.sched.next r.sched.current rest ∧
    (∀ t, t ∈ r.sched.current :: rest ↔ r.Live t) ∧
    ∀ t ∈ r.created, ((r.sched.threads t).state = .dead ↔ t ∉ r.sched.current :: rest)

theorem InRing.ringOfLive {r : Roster} {rest : List ℕ} (h : InRing r rest) : RingOfLive r :=
  ⟨rest, h.ring, h.mem_iff, h.dead_iff⟩

/-- Between the state `first`, in a turn of the thread `T`, and the state `last`, with which its next
turn starts, every other thread that is live in both has exactly one turn. -/
def FairTurns (first : Roster) (more : List SchedCall) (call : SchedCall) : Prop :=
  ∀ before last between, runs first more = some before → call.run before = some last →
    before.turns = first.turns ++ between → first.sched.current ∉ between →
    last.turns = before.turns ++ [first.sched.current] →
    ∀ u, first.Live u → last.Live u → u ≠ first.sched.current → between.count u = 1

/-- The step from the split to fairness. -/
theorem fairTurns_of_inRing {first : Roster} {rest : List ℕ} (h : InRing first rest)
    {more : List SchedCall} {call : SchedCall} (hmore : Schedulable first (more ++ [call])) :
    FairTurns first more call := by
  intro before last between hruns hlast hbetween hT hturn u _ hlive hne
  have hcreated : first.sched.current ∈ first.created :=
    ((h.mem_iff _).mp List.mem_cons_self).1
  obtain ⟨rest', hring, hrotation⟩ := rotation_runs more h hcreated
    (fun u hu ↦ absurd hu List.not_mem_nil) (Rotation.here rest) hmore.left hruns hbetween hT
  obtain ⟨hallowed, -⟩ := schedulable_append hmore hruns
  obtain ⟨last', rest'', hlast', hring', hlist, hturns⟩ := inRing_run hring hallowed
  obtain rfl : last' = last := Option.some.inj (hlast'.symm.trans hlast)
  have hnext : call.turn (before.sched.current :: rest') = [first.sched.current] :=
    List.append_cancel_left (hturns.symm.trans hturn)
  have hmem : u ∈ call.ring (before.sched.current :: rest') := hlist ▸ (hring'.mem_iff u).mpr hlive
  rw [List.nil_append] at hrotation
  exact hrotation.complete hring.ring.nodup hnext hmem hne

/-- Every run of calls from `sched_init` has a result, the ring holds exactly the live threads, in
every part of the run between two turns of a thread the others have one turn each, and a yield or a tick
hands over to the thread behind the current one. -/
theorem ring_and_fair_turns (s : Sched) (t : ℕ) (calls : List SchedCall)
    (hcalls : Schedulable (Roster.init s t) calls) :
    (∃ r, runs (Roster.init s t) calls = some r ∧ RingOfLive r) ∧
      (∀ before more call, before ++ more ++ [call] = calls →
        ∃ first, runs (Roster.init s t) before = some first ∧ FairTurns first more call) ∧
      ∀ before more call sp, before ++ call :: more = calls → call = .yield sp ∨ call = .tick sp →
        ∃ r r', runs (Roster.init s t) before = some r ∧ call.run r = some r' ∧
          r'.sched.current = r.sched.next r.sched.current := by
  refine ⟨?_, fun before more call hsplit ↦ ?_, fun before more call sp hsplit hcall ↦ ?_⟩
  · obtain ⟨r, rest, hruns, hring⟩ := inRing_runs calls (inRing_init s t) hcalls
    exact ⟨r, hruns, hring.ringOfLive⟩
  · rw [← hsplit, List.append_assoc] at hcalls
    obtain ⟨first, rest, hruns, hring⟩ := inRing_runs before (inRing_init s t) hcalls.left
    exact ⟨first, hruns, fairTurns_of_inRing hring (schedulable_append hcalls hruns)⟩
  · rw [← hsplit] at hcalls
    obtain ⟨r, rest, hruns, hring⟩ := inRing_runs before (inRing_init s t) hcalls.left
    have hyield : (schedYield r.sched sp).current = r.sched.next r.sched.current := by
      unfold schedYield
      split_ifs with hother
      · rfl
      · exact (not_not.mp hother).symm
    rcases hcall with rfl | rfl
    · exact ⟨r, _, hruns, rfl, hyield⟩
    · refine ⟨r, _, hruns, rfl, ?_⟩
      have htick : schedTick r.sched sp = schedYield r.sched sp := by
        rw [schedTick, hring.enabled]
        rfl
      exact (congrArg Sched.current htick).trans hyield

/-- A run in which the first thread creates two others and one of them exits. -/
def threeThreads : List SchedCall :=
  [.create 200 1000 1100, .create 300 2000 2100, .yield 500, .tick 501, .exit 502, .tick 503]

theorem schedulable_threeThreads : Schedulable (Roster.init blankSched 100) threeThreads := by
  refine ⟨by decide, fun r₁ h₁ ↦ ⟨?_, fun r₂ h₂ ↦ ⟨trivial, fun r₃ h₃ ↦ ⟨trivial, fun r₄ h₄ ↦
    ⟨?_, fun _ _ ↦ ⟨trivial, fun _ _ ↦ trivial⟩⟩⟩⟩⟩⟩
  · obtain rfl := Option.some.inj h₁
    decide
  · obtain rfl := Option.some.inj h₁
    obtain rfl := Option.some.inj h₂
    obtain rfl := Option.some.inj h₃
    obtain rfl := Option.some.inj h₄
    decide

theorem ring_and_fair_turns_three_threads :
    Schedulable (Roster.init blankSched 100) threeThreads ∧
      ∃ r, runs (Roster.init blankSched 100) threeThreads = some r ∧ RingOfLive r :=
  ⟨schedulable_threeThreads,
    (ring_and_fair_turns blankSched 100 threeThreads schedulable_threeThreads).1⟩

end MegKer.Kernel
