import MegKer.Drivers.Virtio
import MegKer.Foundation.Transition
import Mathlib.Data.List.Nodup
import Mathlib.Data.List.Perm.Basic
import Mathlib.Tactic.SplitIfs

/-!
# The virtio input devices

The event queue of `arch/aarch64/drivers/virtio_input.c`. The driver posts a buffer for each of the
descriptors (`seed_queue`), and afterwards polls for the ones that the device has filled, copies the
event out and posts the buffer again (`poll_event`).

`InputQueue` is the system of the driver and a device. Each access of the driver to the shared tables
is a step of its own, and the device may take its steps in between: it pops available descriptors, writes
events into the buffers of the descriptors it holds, and posts them as used in any order, again with
separate steps for the slot and for the counter.

The invariant (`Custody`) is that each descriptor is in one place, and that the used entries point to
the events that were completed and not returned. Everything else follows from the descriptors being
in one place: no ring overflows, because there are only as many descriptors as slots, and the device
does not write a buffer that the driver reads, because it does not hold its descriptor.
-/

set_option autoImplicit false
set_option relaxedAutoImplicit false

namespace MegKer.Drivers

open Foundation

/-! ### The code -/

/-- `virtio_input_event_t`. -/
structure InputEvent where
  type : UInt16
  code : UInt16
  value : UInt32
  deriving DecidableEq, Repr

/-- The size of `virtio_input_event_t`, which is packed. -/
abbrev eventSize : ℕ := 8

/-- The address of a buffer of the pool. -/
def bufAddr (bufs i : ℕ) : ℕ := bufs + eventSize * i

/-- The descriptor that `seed_queue` writes. -/
def seedDesc (bufs i : ℕ) : VirtqDesc where
  addr := bufAddr bufs i
  len := eventSize
  flags := virtqDescFWrite
  next := 0

/-- The body of the loop in `seed_queue`. -/
def seedOne (bufs : ℕ) (dev : VirtioDevice) (i : ℕ) : VirtioDevice :=
  virtioPublishAvail (dev.writeDesc i (seedDesc bufs i)) i

/-- `seed_queue`, when nothing comes in between. -/
def seedQueue (dev : VirtioDevice) (bufs : ℕ) : VirtioDevice :=
  (List.range dev.queueSize).foldl (seedOne bufs) dev

/-- `poll_event`, when nothing comes in between. The buffers are given by their addresses. -/
def pollEvent (dev : VirtioDevice) (bufs : ℕ) (events : ℕ → InputEvent) :
    Option InputEvent × VirtioDevice :=
  match virtioPollUsed dev with
  | (none, dev) => (none, dev)
  | (some (idx, _), dev) => (some (events (bufAddr bufs idx)), virtioPublishAvail dev idx)

/-! ### The driver and the device -/

/-- Who calls `virtio_publish_avail`. -/
inductive Publisher
  | seedQueue
  /-- `poll_event`, with the event in `*out`. -/
  | pollEvent (out : InputEvent)
  deriving DecidableEq, Repr

/-- How far a call of `seed_queue` or `poll_event` has come. -/
inductive DriverPoint
  | outside
  /-- In front of the write of the descriptor in `seed_queue`. -/
  | describe (i : ℕ)
  /-- There is a used entry; in front of its read in `virtio_poll_used`. -/
  | take
  /-- In front of the copy of `type`, of `code` and of `value`. -/
  | copyType (idx : ℕ)
  | copyCode (idx : ℕ) (type : UInt16)
  | copyValue (idx : ℕ) (type code : UInt16)
  /-- In front of the write of the slot in `publish`. -/
  | fill (caller : Publisher) (idx : ℕ)
  /-- In front of the update of the counter in `publish`. -/
  | count (caller : Publisher) (idx : ℕ)
  deriving DecidableEq, Repr

/-- The driver and the device, with the history. -/
structure InputQueue where
  dev : VirtioDevice
  /-- The events in memory, by their addresses. -/
  events : ℕ → InputEvent
  point : DriverPoint
  /-- How many descriptors `seed_queue` has published. -/
  seeded : ℕ
  /-- The counter of the device in the ring of available descriptors. -/
  popped : ℕ
  /-- The descriptors that the device has popped and not posted. -/
  held : List ℕ
  /-- The ones of them whose buffer has an event. -/
  written : List ℕ
  /-- The descriptor in the slot behind the used entries, in front of the update of the counter. -/
  posting : Option ℕ
  /-- The events that the device has completed. -/
  completed : List InputEvent
  /-- The events that `poll_event` has returned. -/
  returned : List InputEvent

/-- What may happen next. -/
inductive InputAction
  /-- A call of `seed_queue`, and of `poll_event`. -/
  | seed
  | poll
  /-- A step of the call in progress. -/
  | advance
  /-- The device pops a descriptor. -/
  | pop
  /-- The device writes an event into the buffer of a descriptor. -/
  | write (idx : ℕ) (event : InputEvent)
  /-- The device writes a used entry. -/
  | post (idx len : ℕ)
  /-- The device moves the counter of the used entries. -/
  | complete
  deriving DecidableEq, Repr

/-- The start: the device is probed, and the memory may hold anything. -/
def InputQueue.probed (events : ℕ → InputEvent) : InputQueue where
  dev := VirtioDevice.probed
  events := events
  point := .outside
  seeded := 0
  popped := 0
  held := []
  written := []
  posting := none
  completed := []
  returned := []

/-- The end of `virtio_publish_avail`, in the caller. -/
def InputQueue.published (q : InputQueue) (idx : ℕ) : Publisher → InputQueue
  | .seedQueue =>
    { q with seeded := idx + 1
             point := if idx + 1 < q.dev.queueSize then .describe (idx + 1) else .outside }
  | .pollEvent out => { q with returned := q.returned ++ [out], point := .outside }

/-- A step of the driver. -/
def InputQueue.advance (q : InputQueue) (bufs : ℕ) : DriverPoint → Option InputQueue
  | .outside => none
  | .describe i =>
    some { q with dev := q.dev.writeDesc i (seedDesc bufs i), point := .fill .seedQueue i }
  | .take => some { q with dev := q.dev.countSeen, point := .copyType (wrap16 q.dev.nextUsed.id) }
  | .copyType idx => some { q with point := .copyCode idx (q.events (bufAddr bufs idx)).type }
  | .copyCode idx type =>
    some { q with point := .copyValue idx type (q.events (bufAddr bufs idx)).code }
  | .copyValue idx type code =>
    let out := ⟨type, code, (q.events (bufAddr bufs idx)).value⟩
    some { q with point := .fill (.pollEvent out) idx }
  | .fill caller idx => some { q with dev := q.dev.writeAvail idx, point := .count caller idx }
  | .count caller idx => some ({ q with dev := q.dev.countAvail }.published idx caller)

/-- The descriptor lets the device write an event. -/
def VirtqDesc.TakesEvent (desc : VirtqDesc) : Prop :=
  desc.flags &&& virtqDescFWrite ≠ 0 ∧ eventSize ≤ desc.len

instance (desc : VirtqDesc) : Decidable desc.TakesEvent := inferInstanceAs (Decidable (_ ∧ _))

/-- The step relation. The calls do not overlap, and `seed_queue` is called once. -/
def InputQueue.step (bufs : ℕ) (q : InputQueue) : InputAction → Option InputQueue
  | .seed =>
    if q.point = .outside ∧ q.seeded = 0 then
      some { q with point := if 0 < q.dev.queueSize then .describe 0 else .outside }
    else none
  | .poll =>
    if q.point = .outside then
      some { q with point := if q.dev.usedIdx = q.dev.usedSeen then .outside else .take }
    else none
  | .advance => q.advance bufs q.point
  | .pop =>
    if q.popped ≠ q.dev.availIdx then
      some { q with held := q.held ++ [q.dev.nextAvail q.popped], popped := wrap16 (q.popped + 1) }
    else none
  | .write idx event =>
    if idx ∈ q.held ∧ q.posting ≠ some idx ∧ (q.dev.desc idx).TakesEvent then
      some { q with events := Function.update q.events (q.dev.desc idx).addr event
                    written := idx :: q.written }
    else none
  | .post idx len =>
    if idx ∈ q.held ∧ idx ∈ q.written ∧ q.posting = none then
      some { q with dev := q.dev.writeUsed ⟨idx, len⟩, posting := some idx }
    else none
  | .complete =>
    q.posting.map fun idx ↦
      { q with dev := q.dev.countUsed
               held := q.held.erase idx
               written := q.written.filter (· ≠ idx)
               posting := none
               completed := q.completed ++ [q.events (q.dev.desc idx).addr] }

/-! ### The invariant -/

/-- The descriptor that `poll_event` has taken from the used entries. -/
def DriverPoint.taken : DriverPoint → List ℕ
  | .copyType idx | .copyCode idx _ | .copyValue idx _ _ => [idx]
  | .fill (.pollEvent _) idx | .count (.pollEvent _) idx => [idx]
  | _ => []

/-- The descriptors of the driver: the ones it has not published yet, and the one it has taken. -/
def inDriver (seeded : ℕ) (point : DriverPoint) : List ℕ :=
  List.range' seeded (queueSize - seeded) ++ point.taken

/-- The event that `poll_event` is about to return. -/
def DriverPoint.inFlight (bufs : ℕ) (events : ℕ → InputEvent) : DriverPoint → List InputEvent
  | .copyType idx | .copyCode idx _ | .copyValue idx _ _ => [events (bufAddr bufs idx)]
  | .fill (.pollEvent out) _ | .count (.pollEvent out) _ => [out]
  | _ => []

/-- The events of descriptors. -/
def eventsOf (bufs : ℕ) (events : ℕ → InputEvent) (ids : List ℕ) : List InputEvent :=
  ids.map fun idx ↦ events (bufAddr bufs idx)

/-- What a call has achieved when it has come to a point. -/
def DriverPoint.Reached (bufs seeded : ℕ) (dev : VirtioDevice) (events : ℕ → InputEvent) :
    DriverPoint → Prop
  | .outside => True
  | .describe i => i = seeded ∧ i < queueSize
  | .take => dev.usedIdx ≠ dev.usedSeen
  | .copyType _ => True
  | .copyCode idx type => type = (events (bufAddr bufs idx)).type
  | .copyValue idx type code =>
    type = (events (bufAddr bufs idx)).type ∧ code = (events (bufAddr bufs idx)).code
  | .fill .seedQueue i => i = seeded ∧ i < queueSize ∧ dev.desc i = seedDesc bufs i
  | .fill (.pollEvent _) _ => True
  | .count .seedQueue i =>
    i = seeded ∧ i < queueSize ∧ dev.desc i = seedDesc bufs i ∧
      dev.availRing (dev.availIdx % queueSize) = i
  | .count (.pollEvent _) idx => dev.availRing (dev.availIdx % queueSize) = idx

/-- The invariant: each descriptor is in one place, and its buffer holds what it should. -/
structure Custody (bufs : ℕ) (q : InputQueue) (avail used : List ℕ) : Prop where
  indexed : q.dev.Indexed q.popped
  available_eq : q.dev.available q.popped = avail
  used_eq : q.dev.usedIds = used
  places : (inDriver q.seeded q.point ++ avail ++ q.held ++ used).Perm (List.range queueSize)
  described : ∀ i < q.seeded, q.dev.desc i = seedDesc bufs i
  reached : q.point.Reached bufs q.seeded q.dev q.events
  posting : ∀ idx ∈ q.posting,
    idx ∈ q.held ∧ (q.dev.usedRing (q.dev.usedIdx % queueSize)).id = idx
  events : q.returned ++ q.point.inFlight bufs q.events ++ eventsOf bufs q.events used = q.completed

theorem bufAddr_inj {bufs i j : ℕ} : bufAddr bufs i = bufAddr bufs j ↔ i = j := by
  unfold bufAddr eventSize
  omega

theorem custody_probed (bufs : ℕ) (events : ℕ → InputEvent) :
    Custody bufs (InputQueue.probed events) [] [] where
  indexed := indexed_probed
  available_eq := indexed_probed.available_eq_nil_iff.mpr rfl
  used_eq := List.map_eq_nil_iff.mpr (indexed_probed.used_eq_nil_iff.mpr rfl)
  places := List.Perm.refl _
  described := fun i hi ↦ absurd hi (Nat.not_lt_zero i)
  reached := trivial
  posting := fun idx hidx ↦ absurd hidx (Option.not_mem_none idx)
  events := rfl

section Step

variable {bufs : ℕ} {q : InputQueue} {avail used : List ℕ}

theorem Custody.length_places (h : Custody bufs q avail used) :
    (inDriver q.seeded q.point).length + avail.length + q.held.length + used.length = queueSize := by
  have hlength := h.places.length_eq
  rwa [List.length_append, List.length_append, List.length_append, List.length_range] at hlength

/-- While the driver has a descriptor, a slot is free for it. -/
theorem Custody.room_available (h : Custody bufs q avail used)
    (hdriver : inDriver q.seeded q.point ≠ []) :
    (q.dev.available q.popped).length < queueSize := by
  have hlength := h.length_places
  have hpos := List.length_pos_of_ne_nil hdriver
  rw [h.available_eq]
  omega

/-- While the device holds a descriptor, a slot is free for it. -/
theorem Custody.room_used (h : Custody bufs q avail used) {idx : ℕ} (hheld : idx ∈ q.held) :
    q.dev.used.length < queueSize := by
  have hlength := h.length_places
  have hpos := List.length_pos_of_mem hheld
  rw [← h.used_eq, VirtioDevice.usedIds, List.length_map] at hlength
  omega

/-- The driver has described the descriptors that are not its own. -/
theorem Custody.desc_of_held (h : Custody bufs q avail used) {idx : ℕ} (hheld : idx ∈ q.held) :
    q.dev.desc idx = seedDesc bufs idx := by
  have hplaces := h.places
  have hnodup := hplaces.nodup_iff.mpr List.nodup_range
  rw [List.append_assoc, List.append_assoc] at hplaces hnodup
  have hmem : idx ∈ avail ++ (q.held ++ used) :=
    List.mem_append_right _ (List.mem_append_left _ hheld)
  have hlt : idx < queueSize := List.mem_range.mp (hplaces.mem_iff.mp (List.mem_append_right _ hmem))
  refine h.described idx (Nat.lt_of_not_le fun hle ↦ ?_)
  refine List.disjoint_of_nodup_append hnodup (List.mem_append_left _ ?_) hmem
  exact List.mem_range'_1.mpr ⟨hle, by omega⟩

/-- The device holds neither a used descriptor nor the one that the driver has taken. -/
theorem Custody.ne_of_held (h : Custody bufs q avail used) {idx other : ℕ} (hidx : idx ∈ q.held)
    (hother : other ∈ q.point.taken ++ used) : other ≠ idx := by
  rintro rfl
  have hnodup := h.places.nodup_iff.mpr List.nodup_range
  rcases List.mem_append.mp hother with htaken | hused
  · have hdriver : other ∈ inDriver q.seeded q.point ++ avail :=
      List.mem_append_left _ (List.mem_append_right _ htaken)
    exact List.disjoint_of_nodup_append (List.Nodup.of_append_left hnodup) hdriver hidx
  · exact List.disjoint_of_nodup_append hnodup (List.mem_append_right _ hidx) hused

/-- A step of the driver that moves no descriptor and no event. -/
theorem Custody.goto (h : Custody bufs q avail used) {point : DriverPoint}
    (htaken : point.taken = q.point.taken)
    (hflight : point.inFlight bufs q.events = q.point.inFlight bufs q.events)
    (hreached : point.Reached bufs q.seeded q.dev q.events) :
    Custody bufs { q with point := point } avail used := by
  have hplaces := h.places
  have hevents := h.events
  rw [inDriver, ← htaken] at hplaces
  rw [← hflight] at hevents
  exact ⟨h.indexed, h.available_eq, h.used_eq, hplaces, h.described, hreached, h.posting, hevents⟩

/-- `seed_queue` writes a descriptor that is not published yet. -/
theorem Custody.describe (h : Custody bufs q avail used) (hpoint : q.point = .describe q.seeded)
    (hlt : q.seeded < queueSize) :
    Custody bufs { q with dev := q.dev.writeDesc q.seeded (seedDesc bufs q.seeded)
                          point := .fill .seedQueue q.seeded } avail used := by
  have hplaces := h.places
  have hevents := h.events
  rw [hpoint] at hplaces hevents
  refine ⟨h.indexed.writeDesc _ _, (available_writeDesc ..).trans h.available_eq,
    (usedIds_writeDesc ..).trans h.used_eq, hplaces, fun i hi ↦ ?_,
    ⟨rfl, hlt, Function.update_self _ _ _⟩, h.posting, hevents⟩
  have hne : i ≠ q.seeded := Nat.ne_of_lt hi
  exact (Function.update_of_ne hne _ _).trans (h.described i hi)

/-- `virtio_poll_used` takes the first used entry. -/
theorem Custody.take (h : Custody bufs q avail used) (hpoint : q.point = .take)
    (hused : q.dev.usedIdx ≠ q.dev.usedSeen) :
    ∃ rest, Custody bufs { q with dev := q.dev.countSeen
                                  point := .copyType (wrap16 q.dev.nextUsed.id) } avail rest := by
  have hsplit := h.used_eq.symm.trans (h.indexed.usedIds_countSeen hused)
  obtain ⟨rest, hrest⟩ : ∃ rest, q.dev.countSeen.usedIds = rest := ⟨_, rfl⟩
  generalize q.dev.nextUsed.id = idx at hsplit ⊢
  rw [hrest] at hsplit
  obtain rfl := hsplit
  have hplaces := h.places
  have hevents := h.events
  rw [hpoint] at hplaces hevents
  have hwrap : wrap16 idx = idx := by
    have hmem := hplaces.mem_iff.mp (List.mem_append_right _ List.mem_cons_self)
    exact wrap16_of_lt ((List.mem_range.mp hmem).trans (by decide : queueSize < 2 ^ 16))
  rw [hwrap]
  have hmoved : (inDriver q.seeded (.copyType idx) ++ avail ++ q.held ++ rest).Perm
      (inDriver q.seeded .take ++ avail ++ q.held ++ idx :: rest) := by
    simp only [inDriver, DriverPoint.taken, List.append_nil, List.append_assoc,
      List.singleton_append]
    refine List.Perm.append_left _ ?_
    rw [← List.append_assoc, ← List.append_assoc]
    exact List.perm_middle.symm
  have hout : q.returned ++ [q.events (bufAddr bufs idx)] ++ eventsOf bufs q.events rest =
      q.completed := by
    rw [← hevents, List.append_assoc]
    exact congrArg (· ++ _) (List.append_nil _).symm
  exact ⟨rest, h.indexed.countSeen, (available_countSeen ..).trans h.available_eq, hrest,
    hmoved.trans hplaces, h.described, trivial, h.posting, hout⟩

/-- During `virtio_publish_avail`, the driver has a descriptor. -/
theorem Custody.inDriver_ne_nil (h : Custody bufs q avail used) {caller : Publisher} {idx : ℕ}
    (hpoint : q.point = .fill caller idx ∨ q.point = .count caller idx) :
    inDriver q.seeded q.point ≠ [] := by
  have hreached := h.reached
  rcases hpoint with hpoint | hpoint <;> rw [hpoint] at hreached ⊢ <;> cases caller with
  | seedQueue =>
    obtain ⟨rfl, hlt, -⟩ := hreached
    refine List.append_ne_nil_of_left_ne_nil (List.ne_nil_of_length_pos ?_) _
    rw [List.length_range']
    exact Nat.sub_pos_of_lt hlt
  | pollEvent out => exact List.append_ne_nil_of_right_ne_nil _ (List.cons_ne_nil idx [])

/-- The first write of `publish`. -/
theorem Custody.fill (h : Custody bufs q avail used) {caller : Publisher} {idx : ℕ}
    (hpoint : q.point = .fill caller idx) :
    Custody bufs { q with dev := q.dev.writeAvail idx, point := .count caller idx } avail used := by
  have hroom := h.room_available (h.inDriver_ne_nil (Or.inl hpoint))
  have hslot : (q.dev.writeAvail idx).availRing (q.dev.availIdx % queueSize) = idx := by
    rw [VirtioDevice.writeAvail, h.indexed.avail_slot]
    exact Function.update_self _ _ _
  have hreached := h.reached
  have hplaces := h.places
  have hevents := h.events
  rw [hpoint] at hreached hplaces hevents
  refine ⟨h.indexed.writeAvail idx, (h.indexed.available_writeAvail hroom idx).trans h.available_eq,
    (usedIds_writeAvail ..).trans h.used_eq, ?_, h.described, ?_, h.posting, ?_⟩
  · cases caller <;> exact hplaces
  · cases caller with
    | seedQueue => exact ⟨hreached.1, hreached.2.1, hreached.2.2, hslot⟩
    | pollEvent out => exact hslot
  · cases caller <;> exact hevents

/-- The second write of `publish` in `seed_queue` passes a new descriptor on. -/
theorem Custody.countSeed (h : Custody bufs q avail used)
    (hpoint : q.point = .count .seedQueue q.seeded) (hlt : q.seeded < queueSize)
    (hdesc : q.dev.desc q.seeded = seedDesc bufs q.seeded)
    (hslot : q.dev.availRing (q.dev.availIdx % queueSize) = q.seeded) {next : DriverPoint}
    (htaken : next.taken = []) (hflight : next.inFlight bufs q.events = [])
    (hnext : next.Reached bufs (q.seeded + 1) q.dev.countAvail q.events) :
    Custody bufs { q with dev := q.dev.countAvail, seeded := q.seeded + 1, point := next }
      (avail ++ [q.seeded]) used := by
  have hpush := h.indexed.available_countAvail
    (h.room_available (h.inDriver_ne_nil (Or.inr hpoint)))
  rw [hslot, h.available_eq] at hpush
  have hfirst : List.range' q.seeded (queueSize - q.seeded) =
      q.seeded :: List.range' (q.seeded + 1) (queueSize - (q.seeded + 1)) := by
    rw [← List.range'_succ, ← Nat.sub_sub, Nat.sub_add_cancel (Nat.sub_pos_of_lt hlt)]
  have hplaces := h.places
  have hevents := h.events
  rw [hpoint] at hplaces hevents
  refine ⟨h.indexed.countAvail, hpush, (usedIds_countAvail ..).trans h.used_eq, ?_, fun i hi ↦ ?_,
    hnext, h.posting, ?_⟩
  · refine List.Perm.trans (List.Perm.append_right _ (List.Perm.append_right _ ?_)) hplaces
    rw [inDriver, inDriver, htaken, hfirst, ← List.append_assoc]
    exact List.perm_append_singleton _ _
  · rcases Nat.lt_succ_iff_lt_or_eq.mp hi with hi | rfl
    · exact h.described i hi
    · exact hdesc
  · change q.returned ++ next.inFlight bufs q.events ++ eventsOf bufs q.events used = q.completed
    rw [hflight]
    exact hevents

/-- The second write of `publish` in `poll_event` passes the descriptor on, and the event is out. -/
theorem Custody.countPoll (h : Custody bufs q avail used) {out : InputEvent} {idx : ℕ}
    (hpoint : q.point = .count (.pollEvent out) idx)
    (hslot : q.dev.availRing (q.dev.availIdx % queueSize) = idx) :
    Custody bufs { q with dev := q.dev.countAvail
                          returned := q.returned ++ [out]
                          point := .outside } (avail ++ [idx]) used := by
  have hpush := h.indexed.available_countAvail
    (h.room_available (h.inDriver_ne_nil (Or.inr hpoint)))
  rw [hslot, h.available_eq] at hpush
  have hplaces := h.places
  have hevents := h.events
  rw [hpoint] at hplaces hevents
  have hmoved : (inDriver q.seeded .outside ++ (avail ++ [idx])).Perm
      (inDriver q.seeded (.count (.pollEvent out) idx) ++ avail) := by
    simp only [inDriver, DriverPoint.taken, List.append_nil, List.append_assoc]
    exact List.Perm.append_left _ List.perm_append_comm
  have hout : q.returned ++ [out] ++ [] ++ eventsOf bufs q.events used = q.completed := by
    rw [List.append_nil]
    exact hevents
  exact ⟨h.indexed.countAvail, hpush, (usedIds_countAvail ..).trans h.used_eq,
    ((hmoved.append_right _).append_right _).trans hplaces, h.described, trivial, h.posting, hout⟩

/-- The steps of the driver. -/
theorem Custody.advance (h : Custody bufs q avail used) {q' : InputQueue}
    (hstep : q.advance bufs q.point = some q') : ∃ avail used, Custody bufs q' avail used := by
  have hreached := h.reached
  cases hpoint : q.point with
  | outside =>
    rw [hpoint] at hstep
    exact absurd hstep.symm (Option.some_ne_none q')
  | describe i =>
    rw [hpoint] at hstep hreached
    obtain rfl := Option.some.inj hstep
    obtain ⟨rfl, hlt⟩ := hreached
    exact ⟨avail, used, h.describe hpoint hlt⟩
  | take =>
    rw [hpoint] at hstep hreached
    obtain rfl := Option.some.inj hstep
    obtain ⟨rest, hrest⟩ := h.take hpoint hreached
    exact ⟨avail, rest, hrest⟩
  | copyType idx =>
    rw [hpoint] at hstep
    obtain rfl := Option.some.inj hstep
    exact ⟨avail, used, h.goto (by rw [hpoint]; rfl) (by rw [hpoint]; rfl) rfl⟩
  | copyCode idx type =>
    rw [hpoint] at hstep hreached
    obtain rfl := Option.some.inj hstep
    exact ⟨avail, used, h.goto (by rw [hpoint]; rfl) (by rw [hpoint]; rfl) ⟨hreached, rfl⟩⟩
  | copyValue idx type code =>
    rw [hpoint] at hstep hreached
    obtain rfl := Option.some.inj hstep
    obtain ⟨rfl, rfl⟩ := hreached
    exact ⟨avail, used, h.goto (by rw [hpoint]; rfl) (by rw [hpoint]; rfl) trivial⟩
  | fill caller idx =>
    rw [hpoint] at hstep
    obtain rfl := Option.some.inj hstep
    exact ⟨avail, used, h.fill hpoint⟩
  | count caller idx =>
    rw [hpoint] at hstep hreached
    obtain rfl := Option.some.inj hstep
    cases caller with
    | seedQueue =>
      obtain ⟨rfl, hlt, hdesc, hslot⟩ := hreached
      refine ⟨_, used, h.countSeed hpoint hlt hdesc hslot ?_ ?_ ?_⟩
      · split_ifs <;> rfl
      · split_ifs <;> rfl
      · split_ifs with hmore
        · exact ⟨rfl, h.indexed.size ▸ hmore⟩
        · trivial
    | pollEvent out => exact ⟨_, used, h.countPoll hpoint hreached⟩

/-- The device pops a descriptor. -/
theorem Custody.pop (h : Custody bufs q avail used) (hsome : q.popped ≠ q.dev.availIdx) :
    ∃ rest, Custody bufs { q with held := q.held ++ [q.dev.nextAvail q.popped]
                                  popped := wrap16 (q.popped + 1) } rest used := by
  have hsplit := h.available_eq.symm.trans (h.indexed.available_pop hsome)
  generalize q.dev.nextAvail q.popped = idx at hsplit ⊢
  obtain ⟨rest, hrest⟩ : ∃ rest, q.dev.available (wrap16 (q.popped + 1)) = rest := ⟨_, rfl⟩
  rw [hrest] at hsplit
  obtain rfl := hsplit
  refine ⟨rest, h.indexed.pop, hrest, h.used_eq, ?_, h.described, h.reached, fun posted hposted ↦ ?_,
    h.events⟩
  · refine List.Perm.trans (List.Perm.append_right _ ?_) h.places
    rw [List.append_assoc, List.append_assoc, ← List.append_assoc rest]
    exact List.Perm.append_left _ (List.perm_append_singleton _ _)
  · obtain ⟨hheld, hslot⟩ := h.posting posted hposted
    exact ⟨List.mem_append_left _ hheld, hslot⟩

/-- The device writes an event into a buffer that it holds. -/
theorem Custody.write (h : Custody bufs q avail used) {idx : ℕ} (hheld : idx ∈ q.held)
    (event : InputEvent) :
    Custody bufs { q with events := Function.update q.events (q.dev.desc idx).addr event
                          written := idx :: q.written } avail used := by
  have haddr : (q.dev.desc idx).addr = bufAddr bufs idx :=
    congrArg VirtqDesc.addr (h.desc_of_held hheld)
  rw [haddr]
  generalize hafter : Function.update q.events (bufAddr bufs idx) event = after
  have hsame : ∀ other ∈ q.point.taken ++ used,
      after (bufAddr bufs other) = q.events (bufAddr bufs other) := by
    intro other hother
    rw [← hafter]
    exact Function.update_of_ne (mt bufAddr_inj.mp (h.ne_of_held hheld hother)) _ _
  have hwaiting : eventsOf bufs after used = eventsOf bufs q.events used :=
    List.map_congr_left fun other hother ↦ hsame other (List.mem_append_right _ hother)
  have hpoint : q.point.Reached bufs q.seeded q.dev after ∧
      q.point.inFlight bufs after = q.point.inFlight bufs q.events := by
    have hreached := h.reached
    generalize q.point = point at hreached hsame
    cases point with
    | copyType taken => exact ⟨trivial, congrArg (fun out ↦ [out]) (hsame taken List.mem_cons_self)⟩
    | copyCode taken type =>
      have htaken := hsame taken List.mem_cons_self
      exact ⟨hreached.trans (congrArg InputEvent.type htaken).symm, congrArg (fun out ↦ [out]) htaken⟩
    | copyValue taken type code =>
      have htaken := hsame taken List.mem_cons_self
      exact ⟨⟨hreached.1.trans (congrArg InputEvent.type htaken).symm,
        hreached.2.trans (congrArg InputEvent.code htaken).symm⟩,
        congrArg (fun out ↦ [out]) htaken⟩
    | fill caller other => cases caller <;> exact ⟨hreached, rfl⟩
    | count caller other => cases caller <;> exact ⟨hreached, rfl⟩
    | _ => exact ⟨hreached, rfl⟩
  have hevents := h.events
  rw [← hwaiting, ← hpoint.2] at hevents
  exact ⟨h.indexed, h.available_eq, h.used_eq, h.places, h.described, hpoint.1, h.posting, hevents⟩

/-- What a call has achieved does not depend on the used entries that are added to the first. -/
theorem DriverPoint.Reached.of_used {point : DriverPoint} {seeded : ℕ} {dev dev' : VirtioDevice}
    {events : ℕ → InputEvent} (h : point.Reached bufs seeded dev events) (hdesc : dev'.desc = dev.desc)
    (hring : dev'.availRing = dev.availRing) (hidx : dev'.availIdx = dev.availIdx)
    (hused : dev.usedIdx ≠ dev.usedSeen → dev'.usedIdx ≠ dev'.usedSeen) :
    point.Reached bufs seeded dev' events := by
  cases point with
  | take => exact hused h
  | fill caller idx =>
    cases caller with
    | seedQueue => exact ⟨h.1, h.2.1, hdesc ▸ h.2.2⟩
    | pollEvent out => trivial
  | count caller idx =>
    cases caller with
    | seedQueue => exact ⟨h.1, h.2.1, hdesc ▸ h.2.2.1, by rw [hring, hidx]; exact h.2.2.2⟩
    | pollEvent out =>
      change dev'.availRing (dev'.availIdx % queueSize) = idx
      rw [hring, hidx]
      exact h
  | _ => exact h

/-- The device writes a used entry. -/
theorem Custody.post (h : Custody bufs q avail used) {idx : ℕ} (hheld : idx ∈ q.held) (len : ℕ) :
    Custody bufs { q with dev := q.dev.writeUsed ⟨idx, len⟩, posting := some idx } avail used := by
  have hsame := h.indexed.usedIds_writeUsed (h.room_used hheld) ⟨idx, len⟩
  refine ⟨h.indexed.writeUsed _, (available_writeUsed ..).trans h.available_eq,
    hsame.trans h.used_eq, h.places, h.described, h.reached.of_used rfl rfl rfl id,
    fun posted hposted ↦ ?_, h.events⟩
  obtain rfl := Option.some.inj hposted
  have hslot : (q.dev.writeUsed ⟨idx, len⟩).usedRing (q.dev.usedIdx % queueSize) = ⟨idx, len⟩ :=
    Function.update_self _ _ _
  exact ⟨hheld, congrArg UsedElem.id hslot⟩

/-- The device moves the counter of the used entries, and the event is completed. -/
theorem Custody.complete (h : Custody bufs q avail used) {idx : ℕ} (hposting : q.posting = some idx) :
    Custody bufs { q with dev := q.dev.countUsed
                          held := q.held.erase idx
                          written := q.written.filter (· ≠ idx)
                          posting := none
                          completed := q.completed ++ [q.events (q.dev.desc idx).addr] }
      avail (used ++ [idx]) := by
  obtain ⟨hheld, hslot⟩ := h.posting idx hposting
  have hpush := h.indexed.usedIds_countUsed (h.room_used hheld)
  rw [hslot, h.used_eq] at hpush
  have hready : q.dev.countUsed.usedIdx ≠ q.dev.countUsed.usedSeen := by
    intro hnone
    have hnil : q.dev.countUsed.usedIds = [] :=
      List.map_eq_nil_iff.mpr (h.indexed.countUsed.used_eq_nil_iff.mpr hnone)
    exact absurd (hpush.symm.trans hnil) (List.append_ne_nil_of_right_ne_nil _ (List.cons_ne_nil _ _))
  have haddr : (q.dev.desc idx).addr = bufAddr bufs idx :=
    congrArg VirtqDesc.addr (h.desc_of_held hheld)
  have hmoved : (q.held.erase idx ++ (used ++ [idx])).Perm (q.held ++ used) := by
    rw [← List.append_assoc]
    refine (List.perm_append_singleton _ _).trans ?_
    exact (List.perm_cons_erase hheld).symm.append_right used
  have hplaces := h.places
  have hevents := h.events
  rw [List.append_assoc] at hplaces
  refine ⟨h.indexed.countUsed, (available_countUsed ..).trans h.available_eq, hpush, ?_, h.described,
    h.reached.of_used rfl rfl rfl fun _ ↦ hready, fun posted hposted ↦ ?_, ?_⟩
  · refine List.Perm.trans ?_ hplaces
    rw [List.append_assoc]
    exact List.Perm.append_left _ hmoved
  · exact absurd hposted (Option.not_mem_none posted)
  · change q.returned ++ q.point.inFlight bufs q.events ++ eventsOf bufs q.events (used ++ [idx]) =
      q.completed ++ [q.events (q.dev.desc idx).addr]
    rw [haddr, ← hevents, List.append_assoc _ (eventsOf bufs q.events used)]
    exact congrArg (_ ++ ·) List.map_append

/-- The step lemma. -/
theorem custody_step {action : InputAction} {q' : InputQueue}
    (h : ∃ avail used, Custody bufs q avail used) (hstep : q.step bufs action = some q') :
    ∃ avail used, Custody bufs q' avail used := by
  obtain ⟨avail, used, h⟩ := h
  cases action with
  | seed =>
    rw [InputQueue.step] at hstep
    split_ifs at hstep with hstart hsize
    · obtain rfl := Option.some.inj hstep
      refine ⟨avail, used, h.goto ?_ ?_ ⟨hstart.2.symm, by decide⟩⟩
      · rw [hstart.1]
        rfl
      · rw [hstart.1]
        rfl
    · exact absurd (h.indexed.size ▸ hsize) (by decide)
  | poll =>
    rw [InputQueue.step] at hstep
    split_ifs at hstep with houtside hnone
    · obtain rfl := Option.some.inj hstep
      refine ⟨avail, used, h.goto ?_ ?_ trivial⟩
      · rw [houtside]
      · rw [houtside]
    · obtain rfl := Option.some.inj hstep
      refine ⟨avail, used, h.goto ?_ ?_ hnone⟩
      · rw [houtside]
        rfl
      · rw [houtside]
        rfl
  | advance => exact h.advance hstep
  | pop =>
    rw [InputQueue.step] at hstep
    split_ifs at hstep with hsome
    obtain rfl := Option.some.inj hstep
    obtain ⟨rest, hrest⟩ := h.pop hsome
    exact ⟨rest, used, hrest⟩
  | write idx event =>
    rw [InputQueue.step] at hstep
    split_ifs at hstep with hwrite
    obtain rfl := Option.some.inj hstep
    exact ⟨avail, used, h.write hwrite.1 event⟩
  | post idx len =>
    rw [InputQueue.step] at hstep
    split_ifs at hstep with hpost
    obtain rfl := Option.some.inj hstep
    exact ⟨avail, used, h.post hpost.1 len⟩
  | complete =>
    obtain ⟨idx, hposting, rfl⟩ := Option.map_eq_some_iff.mp hstep
    exact ⟨avail, used ++ [idx], h.complete hposting⟩

end Step

/-! ### Calls without a step of the device in between -/

section Alone

variable {bufs : ℕ} {q : InputQueue}

/-- Three steps of `seed_queue` are one turn of its loop. -/
theorem runFrom_describe {i : ℕ} (hpoint : q.point = .describe i) (actions : List InputAction) :
    runFrom (InputQueue.step bufs) q (.advance :: .advance :: .advance :: actions) =
      runFrom (InputQueue.step bufs)
        { q with dev := seedOne bufs q.dev i
                 seeded := i + 1
                 point := if i + 1 < q.dev.queueSize then .describe (i + 1) else .outside }
        actions := by
  rw [runFrom, InputQueue.step, hpoint]
  rfl

/-- The loop of `seed_queue`, from a descriptor on. -/
theorem runFrom_seedLoop (k : ℕ) : ∀ {q : InputQueue} {i : ℕ}, q.point = .describe i →
    q.dev.queueSize = i + (k + 1) →
    runFrom (InputQueue.step bufs) q (List.replicate (3 * (k + 1)) .advance) =
      some { q with dev := (List.range' i (k + 1)).foldl (seedOne bufs) q.dev
                    seeded := i + (k + 1)
                    point := .outside } := by
  induction k with
  | zero =>
    intro q i hpoint hsize
    have hend : ¬ i + 1 < q.dev.queueSize := by omega
    exact (runFrom_describe hpoint []).trans (by rw [if_neg hend]; rfl)
  | succ k ih =>
    intro q i hpoint hsize
    have hmore : i + 1 < q.dev.queueSize := by omega
    refine (runFrom_describe hpoint (List.replicate (3 * (k + 1)) .advance)).trans ?_
    have hrest : (List.range' i (k + 1 + 1)).foldl (seedOne bufs) q.dev =
        (List.range' (i + 1) (k + 1)).foldl (seedOne bufs) (seedOne bufs q.dev i) := by
      rw [List.range'_succ, List.foldl_cons]
    have hcount : i + (k + 1 + 1) = i + 1 + (k + 1) := by omega
    rw [if_pos hmore, hrest, hcount]
    refine ih rfl ?_
    exact hsize.trans hcount

/-- `seed_queue` does what its loop says. -/
theorem runFrom_seed (hpoint : q.point = .outside) (hseeded : q.seeded = 0)
    (hsize : q.dev.queueSize = queueSize) :
    runFrom (InputQueue.step bufs) q (.seed :: List.replicate (3 * queueSize) .advance) =
      some { q with dev := seedQueue q.dev bufs, seeded := queueSize } := by
  rw [runFrom, InputQueue.step, if_pos ⟨hpoint, hseeded⟩, if_pos (hsize ▸ by decide), Option.bind_some]
  rw [seedQueue, hsize, List.range_eq_range', hpoint]
  exact runFrom_seedLoop (q := { q with point := .describe 0 }) 7 rfl hsize

/-- `poll_event` without a used entry. -/
theorem runFrom_poll_of_none (hpoint : q.point = .outside)
    (hnone : (pollEvent q.dev bufs q.events).1 = none) :
    runFrom (InputQueue.step bufs) q [.poll] = some q := by
  have hidle : q.dev.usedIdx = q.dev.usedSeen := by
    by_contra hready
    rw [pollEvent, virtioPollUsed, if_neg hready] at hnone
    exact absurd hnone (Option.some_ne_none _)
  rw [runFrom, InputQueue.step, if_pos hpoint, if_pos hidle, ← hpoint]
  rfl

/-- `poll_event` with a used entry returns the event of its buffer. -/
theorem runFrom_poll_of_some (hpoint : q.point = .outside) {out : InputEvent}
    (hsome : (pollEvent q.dev bufs q.events).1 = some out) :
    runFrom (InputQueue.step bufs) q (.poll :: List.replicate 6 .advance) =
      some { q with dev := (pollEvent q.dev bufs q.events).2, returned := q.returned ++ [out] } := by
  by_cases hready : q.dev.usedIdx = q.dev.usedSeen
  · rw [pollEvent, virtioPollUsed, if_pos hready] at hsome
    exact absurd hsome.symm (Option.some_ne_none out)
  · rw [pollEvent, virtioPollUsed, if_neg hready] at hsome ⊢
    obtain rfl := Option.some.inj hsome
    rw [runFrom, InputQueue.step, if_pos hpoint, if_neg hready, hpoint]
    rfl

end Alone

/-! ### Runs -/

/-- The descriptors of all places: the driver, the ring of available ones, the device, and the ring of
used ones. -/
def InputQueue.places (q : InputQueue) : List ℕ :=
  inDriver q.seeded q.point ++ q.dev.available q.popped ++ q.held ++ q.dev.usedIds

/-- The events that were completed and not returned, in the order of the used entries. -/
def InputQueue.unreturned (q : InputQueue) (bufs : ℕ) : List InputEvent :=
  q.point.inFlight bufs q.events ++ eventsOf bufs q.events q.dev.usedIds

/-- In every run, each descriptor is in one place; `publish` does not write a slot that the device has
not popped; and the events that `poll_event` has returned are the first that the device has completed,
the others being in the buffers. When `poll_event` finds no used entry, it has returned all of them. -/
theorem places_perm_and_returned_append (bufs : ℕ) (events : ℕ → InputEvent)
    (actions : List InputAction) (q : InputQueue)
    (hrun : runFrom (InputQueue.step bufs) (InputQueue.probed events) actions = some q) :
    q.places.Perm (List.range queueSize) ∧
      (∀ caller idx, q.point = .fill caller idx → ∀ i < (q.dev.available q.popped).length,
        (q.popped + i) % queueSize ≠ wrap16 (q.dev.availIdx % q.dev.queueSize)) ∧
      q.returned ++ q.unreturned bufs = q.completed ∧
      (q.point = .outside → q.dev.usedIdx = q.dev.usedSeen → q.returned = q.completed) := by
  obtain ⟨avail, used, h⟩ := invariant_runFrom (fun h _ hstep ↦ custody_step h hstep)
    ⟨[], [], custody_probed bufs events⟩ (alongRun_true (InputQueue.probed events) actions) hrun
  have hplaces := h.places
  have hevents := h.events
  rw [← h.available_eq, ← h.used_eq] at hplaces
  rw [← h.used_eq, List.append_assoc] at hevents
  refine ⟨hplaces, fun caller idx hpoint i hi ↦ ?_, hevents, fun houtside hnone ↦ ?_⟩
  · exact h.indexed.slot_ne (h.room_available (h.inDriver_ne_nil (Or.inl hpoint))) hi
  · have hused : q.dev.usedIds = [] :=
      List.map_eq_nil_iff.mpr (h.indexed.used_eq_nil_iff.mpr hnone)
    rw [houtside, hused] at hevents
    exact (List.append_nil _).symm.trans hevents

/-- The device completes two events, the second descriptor first, and the first event is polled. -/
def twoEvents : List InputAction :=
  .seed :: List.replicate 24 .advance ++
    [.pop, .pop, .write 0 ⟨1, 30, 1⟩, .write 1 ⟨1, 31, 1⟩, .post 1 8, .complete, .poll, .post 0 8,
      .advance, .complete] ++ List.replicate 5 .advance

theorem places_perm_and_returned_append_two_events :
    ∃ q, runFrom (InputQueue.step 4096) (InputQueue.probed fun _ ↦ ⟨0, 0, 0⟩) twoEvents = some q ∧
      q.places.Perm (List.range queueSize) ∧ q.returned ++ q.unreturned 4096 = q.completed ∧
      q.returned = [⟨1, 31, 1⟩] ∧ q.completed = [⟨1, 31, 1⟩, ⟨1, 30, 1⟩] := by
  have hhistory : (runFrom (InputQueue.step 4096) (InputQueue.probed fun _ ↦ ⟨0, 0, 0⟩)
      twoEvents).map (fun q ↦ (q.returned, q.completed)) =
        some ([⟨1, 31, 1⟩], [⟨1, 31, 1⟩, ⟨1, 30, 1⟩]) := by decide
  obtain ⟨q, hrun, hq⟩ := Option.map_eq_some_iff.mp hhistory
  obtain ⟨hplaces, -, hevents, -⟩ :=
    places_perm_and_returned_append 4096 (fun _ ↦ ⟨0, 0, 0⟩) twoEvents q hrun
  exact ⟨q, hrun, hplaces, hevents, congrArg Prod.fst hq, congrArg Prod.snd hq⟩

end MegKer.Drivers
